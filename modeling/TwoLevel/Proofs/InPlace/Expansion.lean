/-
  The expansion of a minterm, in place and with every index checked.

  Two kinds of failure are told apart: a `Defect` is an answer, an index out of range is none at
  all. The latter does not occur: each step returns what its definition without indices returns
  (`expand_refines`).
-/
import TwoLevel.Proofs.Implicants
import TwoLevel.Proofs.InPlace.Mandatory
import TwoLevel.Proofs.InPlace.Search
import TwoLevel.Proofs.InPlace.Vectors

namespace TwoLevel.InPlace

/-- A computation which reads by index and may report a defect: `none` is an index out of range. -/
abbrev Checked :=
  ExceptT Defect Option

@[simp] theorem lift_some {α : Type} (a : α) : (liftM (some a) : Checked α) = pure a :=
  rfl

@[simp] theorem lift_ok {α : Type} (a : α) :
    (liftM (Except.ok a : Except Defect α) : Checked α) = pure a :=
  rfl

/-- With every index in range, the result is that of the computation which does not check. -/
theorem run_lift {α : Type} (x : Except Defect α) :
    ExceptT.run (liftM x : Checked α) = some x := by
  cases x <;> rfl

/-! ## Covers of a matrix -/

section Matrix

open CoverMatrix

variable {L : Type} {m : CoverMatrix L}

/-- The labels of the mandatory columns, and the matrix which is left to cover. -/
def simplify (m : CoverMatrix L) : Checked (List L × CoverMatrix L) := do
  let rows ← reduceDominated m.rows
  let sorted ← sortColumns ⟨rows, m.labels⟩
  let (mandatory, rest) ← extractMandatory sorted
  let labels ← mandatory
  return (labels, rest)

/-- The labels of the minimal covers, each read by the index of its column. -/
def minimalCovers (m : CoverMatrix L) : Checked (List (List L)) := do
  let covers ← InPlace.minimalCoverColumns m
  covers.mapM fun cols => (cols.mapM (m.labels[·]?) : Option (List L))

theorem simplify_refines (m : CoverMatrix L) : InPlace.simplify m = liftM m.simplify := by
  have hsorted : m.reduce.sortColumns.InBounds :=
    reindex_inBounds fun _ hc => mem_weightOrder.mp hc
  have hmatrix : (⟨TwoLevel.reduceDominated m.rows, m.labels⟩ : CoverMatrix L) = m.reduce := rfl
  unfold InPlace.simplify CoverMatrix.simplify
  simp only [reduceDominated_refines, hmatrix, sortColumns_refines,
    extractMandatory_refines hsorted, lift_some, pure_bind]
  rcases m.reduce.sortColumns.extractMandatory with ⟨_ | _, _⟩ <;> rfl

theorem minimalCovers_refines {covers : List (List L)} (h : m.minimalCovers = .ok covers) :
    InPlace.minimalCovers m = pure covers := by
  unfold CoverMatrix.minimalCovers at h
  cases hcols : m.minimalCoverColumns with
  | error d =>
    rw [hcols] at h
    cases h
  | ok found =>
    rw [hcols] at h
    cases h
    obtain ⟨k, rfl⟩ := eq_selections_of_minimalCoverColumns hcols
    have hlabels : ((selections k m.columns m.rows).mapM fun cols =>
        (liftM (cols.mapM (m.labels[·]?)) : Checked (List L))) =
        pure ((selections k m.columns m.rows).map m.labelsAt) := by
      refine mapM_eq_pure_map fun cols hcols => ?_
      rw [mapM_lookup (lt_of_mem_sublist (mem_selections.mp hcols).1)]
      rfl
    simp only [InPlace.minimalCovers, minimalCoverColumns_refines, hcols, lift_ok, pure_bind]
    exact hlabels

end Matrix

/-! ## Cubes of a minterm -/

/-- Fixes the positions of the literals, one after the other. -/
def writeLiterals (w : Nat) : List Literal → List Ternary → Option (List Ternary)
  | [], values => some values
  | l :: lits, values =>
    if l.index < w ∧ w - 1 - l.index < values.length then
      writeLiterals w lits (values.set (w - 1 - l.index) (.ofPolarity (some l.positive)))
    else none

/-- The cube which fixes the variables named by the literals. -/
def ofLiterals (w : Nat) (lits : List Literal) : Option Cube :=
  (writeLiterals w lits (List.replicate w .free)).map .mk

/-- The difference matrix. The vectors have to be of one width, and its rows have to name existing
    columns. -/
def differenceMatrix (f : BitVector) (off : List BitVector) : Option (CoverMatrix Literal) := do
  let labels ← (List.range f.width).mapM fun pos =>
    f.bits[pos]?.map fun b => ⟨f.variableAt pos, b⟩
  let rows := off.map fun r => symmetricDifference (.ofBits r.bits) (.ofBits f.bits)
  let m : CoverMatrix Literal := ⟨rows, labels⟩
  if (∀ r ∈ off, r.width = f.width) ∧ m.InBounds then some m else none

/-- The cubes with the fewest literals which contain `f` and no vector of the OFF-set. -/
def expand (f : BitVector) (off : List BitVector) (ties : Ties) : Checked (List Cube) := do
  let m ← differenceMatrix f off
  let (mandatory, rest) ← simplify m
  if rest.columnCount = 0 then
    let c ← ofLiterals f.width mandatory
    return [c]
  let covers ← minimalCovers rest
  (ties.select covers).mapM fun cover => ofLiterals f.width (mandatory ++ cover)

theorem descending_const {α : Type} (a : α) (w : Nat) :
    descending (fun _ => a) w = List.replicate w a := by
  induction w with
  | zero => rfl
  | succ w ih => rw [descending, ih, List.replicate_succ]

theorem set_descending {α : Type} (f : Nat → α) {w i : Nat} (h : i < w) (a : α) :
    (descending f w).set (w - 1 - i) a = descending (Function.update f i a) w := by
  refine List.ext_getElem? fun p => ?_
  by_cases hp : p < w
  · rw [List.getElem?_set, length_descending, getElem?_descending _ hp,
      getElem?_descending _ hp, Function.update_apply]
    by_cases hpi : w - 1 - i = p
    · rw [if_pos hpi, if_pos (by omega), if_pos (by omega)]
    · rw [if_neg hpi, if_neg (by omega)]
  · have hle : w ≤ p := Nat.le_of_not_lt hp
    rw [getElem?_descending_of_le _ hle, List.getElem?_eq_none]
    rwa [List.length_set, length_descending]

theorem polarity?_append (lits others : List Literal) (v : Nat) :
    Literal.polarity? (lits ++ others) v =
      (Literal.polarity? others v).or (Literal.polarity? lits v) := by
  induction lits with
  | nil => rw [List.nil_append, Literal.polarity?, Option.or_none]
  | cons l lits ih =>
    rw [List.cons_append, Literal.polarity?, ih, Option.or_assoc, Literal.polarity?]

/-- The positions hold the values which the literals written so far give to their variables. -/
theorem writeLiterals_descending {w : Nat} {written lits : List Literal}
    (h : ∀ l ∈ lits, l.index < w) :
    writeLiterals w lits (descending (fun v => .ofPolarity (Literal.polarity? written v)) w) =
      some (descending (fun v => .ofPolarity (Literal.polarity? (written ++ lits) v)) w) := by
  induction lits generalizing written with
  | nil => rw [List.append_nil, writeLiterals]
  | cons l lits ih =>
    have hl : l.index < w := h l List.mem_cons_self
    have hupdate : Function.update (fun v => Ternary.ofPolarity (Literal.polarity? written v))
        l.index (.ofPolarity (some l.positive)) =
        fun v => .ofPolarity (Literal.polarity? (written ++ [l]) v) := by
      funext v
      rw [Function.update_apply, polarity?_append]
      by_cases hv : v = l.index
      · simp [Literal.polarity?, hv]
      · simp [Literal.polarity?, hv, Ne.symm hv]
    have hrest := @ih (written ++ [l]) fun k hk => h k (List.mem_cons_of_mem l hk)
    rw [writeLiterals, if_pos ⟨hl, by rw [length_descending]; omega⟩, set_descending _ hl, hupdate,
      hrest, List.append_assoc]
    rfl

theorem ofLiterals_refines {w : Nat} {lits : List Literal} (h : ∀ l ∈ lits, l.index < w) :
    InPlace.ofLiterals w lits = some (Cube.ofLiterals w lits) := by
  have hwrite := @writeLiterals_descending w [] lits h
  have hfree : descending (fun v => Ternary.ofPolarity (Literal.polarity? [] v)) w =
      List.replicate w .free := descending_const _ w
  rw [hfree] at hwrite
  unfold InPlace.ofLiterals
  rw [hwrite]
  rfl

theorem differenceMatrix_refines {f : BitVector} {off : List BitVector}
    (hoff : ∀ r ∈ off, r.width = f.width) :
    InPlace.differenceMatrix f off = some (TwoLevel.differenceMatrix f off) := by
  have hread : ((List.range f.width).mapM fun pos =>
      f.bits[pos]?.map fun b => (⟨f.variableAt pos, b⟩ : Literal)) =
      some ((List.range f.width).map fun pos => ⟨f.variableAt pos, f.get pos⟩) := by
    refine mapM_eq_pure_map fun pos hpos => ?_
    have hlt : pos < f.bits.length := List.mem_range.mp hpos
    simp [BitVector.get, hlt]
  have hlabels : ((List.range f.width).map fun pos => (⟨f.variableAt pos, f.get pos⟩ : Literal)) =
      literalsOfBits f.bits := by
    refine List.ext_getElem? fun k => ?_
    rw [getElem?_literalsOfBits, List.getElem?_map]
    by_cases hk : k < f.width
    · have hlt : k < f.bits.length := hk
      rw [List.getElem?_range hk]
      simp [BitVector.get, BitVector.variableAt, BitVector.width, hlt]
    · rw [List.getElem?_eq_none (by rw [List.length_range]; exact Nat.le_of_not_lt hk),
        List.getElem?_eq_none (Nat.le_of_not_lt hk)]
      rfl
  have hrows : (off.map fun r => symmetricDifference (.ofBits r.bits) (.ofBits f.bits)) =
      (TwoLevel.differenceMatrix f off).rows :=
    List.map_congr_left fun r hr => symmetricDifference_refines (hoff r hr)
  unfold InPlace.differenceMatrix
  rw [hread, hlabels, hrows]
  exact if_pos ⟨hoff, (differenceMatrix_wellFormed f off).inBounds⟩

/-! ## Smallest implicants -/

/-- A matrix which is left without columns is left without rows: the empty cover is the only
    one. -/
theorem covers_of_no_columns {L : Type} {m rest : CoverMatrix L} {forced : List L}
    {covers : List (List L)} (h : m.Extracted forced rest) (hcount : rest.columnCount = 0)
    (hcovers : rest.minimalCovers = .ok covers) : covers = [[]] := by
  obtain ⟨rows, labels⟩ := rest
  have hlabels : labels = [] := List.eq_nil_of_length_eq_zero hcount
  subst hlabels
  have hrows : rows = [] := by
    refine List.eq_nil_iff_forall_not_mem.mpr fun r hr => ?_
    obtain ⟨c, hc⟩ := List.exists_mem_of_ne_nil _ (h.coverable r hr)
    exact absurd (h.wellFormed.inBounds r hr c hc) (Nat.not_lt_zero c)
  subst hrows
  exact (Except.ok.inj hcovers).symm

section Expand

variable {f : BitVector} {off : List BitVector} (hoff : ∀ r ∈ off, r.width = f.width)

include hoff

/-- The expansion of a vector of the OFF-set ends with its empty row. -/
theorem expand_refines_of_mem (hf : f ∈ off) (ties : Ties) :
    InPlace.expand f off ties = liftM (TwoLevel.expand f off ties) := by
  have hsimp := CoverMatrix.simplify_eq_error (not_coverable_differenceMatrix hf)
  rw [expand_of_mem hf]
  unfold InPlace.expand
  simp only [differenceMatrix_refines hoff, simplify_refines, hsimp, lift_some, pure_bind]
  rfl

theorem expand_refines_of_not_mem (hf : f ∉ off) (ties : Ties) :
    InPlace.expand f off ties = liftM (TwoLevel.expand f off ties) := by
  obtain ⟨mandatory, rest, covers, hsimp, hext, hcovers, hlists⟩ :=
    CoverMatrix.simplify_minimalCovers_spec (differenceMatrix_wellFormed f off)
      (differenceMatrix_coverable hoff hf)
  have hcubes : TwoLevel.expand f off ties =
      .ok ((ties.select covers).map fun cover => .ofLiterals f.width (mandatory ++ cover)) := by
    unfold TwoLevel.expand
    rw [hsimp]
    simp only [bind, Except.bind, hcovers]
    rfl
  have hwrite : ∀ cover ∈ covers, InPlace.ofLiterals f.width (mandatory ++ cover) =
      some (.ofLiterals f.width (mandatory ++ cover)) := by
    intro cover hcover
    refine ofLiterals_refines fun l hl => index_lt_of_mem_literalsOfBits ?_
    exact (hlists.minimal _ (List.mem_map_of_mem hcover)).labels l (List.mem_toFinset.mpr hl)
  unfold InPlace.expand
  simp only [differenceMatrix_refines hoff, simplify_refines, hsimp, hcubes, lift_some, lift_ok,
    pure_bind]
  by_cases hcount : rest.columnCount = 0
  · have hnil : covers = [[]] := covers_of_no_columns hext hcount hcovers
    have hmandatory := hwrite [] (hnil ▸ List.mem_singleton_self [])
    rw [List.append_nil] at hmandatory
    rw [if_pos hcount, hmandatory, hnil]
    cases ties <;> simp [Ties.select]
  · rw [if_neg hcount, minimalCovers_refines hcovers, pure_bind]
    refine mapM_eq_pure_map fun cover hcover => ?_
    rw [hwrite cover (Ties.mem_of_mem_select hcover)]
    rfl

theorem expand_refines (ties : Ties) :
    InPlace.expand f off ties = liftM (TwoLevel.expand f off ties) := by
  by_cases hf : f ∈ off
  · exact expand_refines_of_mem hoff hf ties
  · exact expand_refines_of_not_mem hoff hf ties

end Expand

end TwoLevel.InPlace
