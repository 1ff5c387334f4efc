/-
  The expansion of a minterm finds its smallest implicants.

  An implicant of `f` against an OFF-set is a cube of the width of `f` which contains `f` and no
  vector of the OFF-set. Its literals are literals of `f`, and a vector `r` is avoided exactly if
  one of them is not a literal of `r`. So the implicants are the sets of labels which hit the rows
  of the difference matrix (`isImplicant_iff`), those with the fewest literals are its minimal
  covers (`isSmallestImplicant_iff`), and the expansion lists them, each once (`expand_all_spec`).
  If `f` itself is in the OFF-set, its row is empty, and the expansion fails (`expand_of_mem`).
-/
import TwoLevel.Proofs.CoverSearch
import TwoLevel.Proofs.Literals

namespace TwoLevel

/-- The cube contains `f` and no vector of the OFF-set. -/
structure IsImplicant (f : BitVector) (off : List BitVector) (c : Cube) : Prop where
  width : c.width = f.width
  contains : c.contains f = true
  avoids : ∀ r ∈ off, c.contains r = false

/-- An implicant of `f` such that no implicant of `f` has fewer literals. -/
structure IsSmallestImplicant (f : BitVector) (off : List BitVector) (c : Cube) : Prop
    extends IsImplicant f off c where
  least : ∀ d, IsImplicant f off d → c.literalCount ≤ d.literalCount

variable {f : BitVector} {off : List BitVector}

/-! ## The difference matrix -/

theorem mem_differenceRow {r : BitVector} {k : Nat} :
    k ∈ Row.ofBits (r.xor f).bits ↔
      ∃ a b, r.bits[k]? = some a ∧ f.bits[k]? = some b ∧ a ≠ b := by
  simp only [Row.ofBits, Row.mem_positions, BitVector.xor, List.getElem?_zipWith_eq_some, id]
  constructor
  · intro h
    obtain ⟨_, ⟨a, b, ha, hb, rfl⟩, hxor⟩ := h
    exact ⟨a, b, ha, hb, by simpa using hxor⟩
  · intro h
    obtain ⟨a, b, ha, hb, hne⟩ := h
    exact ⟨_, ⟨a, b, ha, hb, rfl⟩, by simpa using hne⟩

theorem differenceMatrix_wellFormed (f : BitVector) (off : List BitVector) :
    (differenceMatrix f off).WellFormed := by
  refine ⟨fun row hrow k hk => ?_, nodup_literalsOfBits f.bits⟩
  obtain ⟨r, _, rfl⟩ := List.mem_map.mp hrow
  obtain ⟨_, b, _, hb, _⟩ := mem_differenceRow.mp hk
  show k < (literalsOfBits f.bits).length
  rw [length_literalsOfBits]
  exact (List.getElem?_eq_some_iff.mp hb).1

/-- A row has the literals of `f` which the vector of the row does not have. -/
theorem mem_rowLabels_difference (off : List BitVector) {r : BitVector} (h : r.width = f.width)
    {l : Literal} :
    l ∈ (differenceMatrix f off).rowLabels (.ofBits (r.xor f).bits) ↔
      l ∈ literalsOfBits f.bits ∧ l ∉ literalsOfBits r.bits := by
  have hlen : r.bits.length = f.bits.length := h
  rw [CoverMatrix.mem_rowLabels]
  show (∃ k ∈ Row.ofBits (r.xor f).bits, (literalsOfBits f.bits)[k]? = some l) ↔ _
  constructor
  · intro h
    obtain ⟨k, hk, hl⟩ := h
    obtain ⟨a, b, ha, hb, hne⟩ := mem_differenceRow.mp hk
    refine ⟨List.mem_of_getElem? hl, fun hr => ?_⟩
    have hk : k < f.bits.length := (List.getElem?_eq_some_iff.mp hb).1
    rw [getElem?_literalsOfBits, hb, Option.map_some, Option.some_inj] at hl
    obtain ⟨_, hrb⟩ := mem_literalsOfBits.mp hr
    subst hl
    rw [hlen] at hrb
    simp only [show f.bits.length - 1 - (f.bits.length - 1 - k) = k by omega, ha,
      Option.some_inj] at hrb
    exact hne hrb
  · intro h
    obtain ⟨hf, hr⟩ := h
    obtain ⟨hlt, hb⟩ := mem_literalsOfBits.mp hf
    have hk : f.bits.length - 1 - l.index < r.bits.length := by omega
    refine ⟨f.bits.length - 1 - l.index, mem_differenceRow.mpr ?_, ?_⟩
    · refine ⟨_, _, List.getElem?_eq_getElem hk, hb, fun heq => hr (mem_literalsOfBits.mpr ?_)⟩
      rw [hlen, ← heq]
      exact ⟨hlt, List.getElem?_eq_getElem hk⟩
    · rw [getElem?_literalsOfBits, hb, Option.map_some,
        show f.bits.length - 1 - (f.bits.length - 1 - l.index) = l.index by omega]

theorem vector_ext {v w : BitVector} (hwidth : v.width = w.width)
    (h : ∀ l ∈ literalsOfBits v.bits, l ∈ literalsOfBits w.bits) : v = w := by
  have hlen : v.bits.length = w.bits.length := hwidth
  have hbits : v.bits = w.bits := by
    refine List.ext_getElem hlen fun k hv hw => ?_
    have hl := h ⟨v.bits.length - 1 - k, v.bits[k]⟩ <| mem_literalsOfBits.mpr
      ⟨by show v.bits.length - 1 - k < v.bits.length; omega, by
        rw [show v.bits.length - 1 - (v.bits.length - 1 - k) = k by omega]
        exact List.getElem?_eq_getElem hv⟩
    have hwb := (mem_literalsOfBits.mp hl).2
    rw [hlen, show w.bits.length - 1 - (w.bits.length - 1 - k) = k by omega,
      List.getElem?_eq_getElem hw, Option.some_inj] at hwb
    exact hwb.symm
  cases v
  cases w
  exact congrArg BitVector.mk hbits

section Expansion

variable (hoff : ∀ r ∈ off, r.width = f.width)

include hoff

theorem hits_difference {S : Finset Literal} :
    (differenceMatrix f off).Hits S ↔
      ∀ r ∈ off, ∃ l ∈ S, l ∈ literalsOfBits f.bits ∧ l ∉ literalsOfBits r.bits := by
  simp only [CoverMatrix.Hits, differenceMatrix, List.forall_mem_map]
  refine forall₂_congr fun r hr => exists_congr fun l => and_congr_right fun _ => ?_
  exact mem_rowLabels_difference off (hoff r hr)

theorem differenceMatrix_coverable (hf : f ∉ off) : (differenceMatrix f off).Coverable := by
  intro row hrow hempty
  obtain ⟨r, hr, rfl⟩ := List.mem_map.mp hrow
  refine hf (vector_ext (hoff r hr).symm (fun l hl => ?_) ▸ hr)
  by_contra hlr
  have hmem := (mem_rowLabels_difference off (hoff r hr)).mpr ⟨hl, hlr⟩
  obtain ⟨k, hk, _⟩ := CoverMatrix.mem_rowLabels.mp hmem
  rw [Row.mem_def, hempty] at hk
  cases hk

omit hoff in
/-- A vector does not differ from itself: its row is empty. -/
theorem not_coverable_differenceMatrix (hf : f ∈ off) : ¬ (differenceMatrix f off).Coverable := by
  intro h
  refine h _ (List.mem_map_of_mem hf) (List.eq_nil_iff_forall_not_mem.mpr fun k hk => ?_)
  obtain ⟨a, b, ha, hb, hne⟩ := mem_differenceRow.mp hk
  exact hne (Option.some.inj (ha.symm.trans hb))

/-- The implicants of `f` are the sets of its literals which hit the difference matrix. -/
theorem isImplicant_iff {c : Cube} :
    IsImplicant f off c ↔ c.width = f.width ∧
      (∀ l ∈ c.literals.toFinset, l ∈ (differenceMatrix f off).labels) ∧
      (differenceMatrix f off).Hits c.literals.toFinset := by
  rw [hits_difference hoff]
  constructor
  · intro h
    obtain ⟨hwidth, hcontains, havoids⟩ := h
    have hlits := (Cube.contains_iff hwidth).mp hcontains
    refine ⟨hwidth, fun l hl => hlits l (List.mem_toFinset.mp hl), fun r hr => ?_⟩
    have hnot := mt (Cube.contains_iff (hwidth.trans (hoff r hr).symm)).mpr
      (Bool.eq_false_iff.mp (havoids r hr))
    push Not at hnot
    obtain ⟨l, hl, hlr⟩ := hnot
    exact ⟨l, List.mem_toFinset.mpr hl, hlits l hl, hlr⟩
  · intro h
    obtain ⟨hwidth, hlits, hhits⟩ := h
    refine ⟨hwidth, ?_, fun r hr => Bool.eq_false_iff.mpr fun hcr => ?_⟩
    · exact (Cube.contains_iff hwidth).mpr fun l hl => hlits l (List.mem_toFinset.mpr hl)
    · obtain ⟨l, hl, _, hlr⟩ := hhits r hr
      have hsub := (Cube.contains_iff (hwidth.trans (hoff r hr).symm)).mp hcr
      exact hlr (hsub l (List.mem_toFinset.mp hl))

omit hoff in
/-- The cube of a list of labels of the difference matrix has these literals. -/
theorem literals_ofLiterals_toFinset {lits : List Literal}
    (h : ∀ l ∈ lits, l ∈ literalsOfBits f.bits) :
    (Cube.ofLiterals f.width lits).literals.toFinset = lits.toFinset := by
  ext l
  rw [List.mem_toFinset, List.mem_toFinset]
  refine Cube.mem_literals_ofLiterals ?_ fun k hk => index_lt_of_mem_literalsOfBits (h k hk)
  exact Literal.consistent_of_subset (Literal.consistent_literalsOfBits f.bits) h

theorem isSmallestImplicant_iff {c : Cube} :
    IsSmallestImplicant f off c ↔ c.width = f.width ∧
      (differenceMatrix f off).IsMinimalCover c.literals.toFinset := by
  constructor
  · intro h
    obtain ⟨himp, hleast⟩ := h
    obtain ⟨hwidth, hlits, hhits⟩ := (isImplicant_iff hoff).mp himp
    refine ⟨hwidth, hlits, hhits, fun T hT hThits => ?_⟩
    have hT' : ∀ l ∈ T.toList, l ∈ literalsOfBits f.bits :=
      fun l hl => hT l (Finset.mem_toList.mp hl)
    have hcube : (Cube.ofLiterals f.width T.toList).literals.toFinset = T := by
      rw [literals_ofLiterals_toFinset hT', Finset.toList_toFinset]
    have hd : IsImplicant f off (Cube.ofLiterals f.width T.toList) := by
      rw [isImplicant_iff hoff, hcube]
      exact ⟨Cube.width_ofLiterals _ _, hT, hThits⟩
    have hcount := hleast _ hd
    rwa [Cube.literalCount_eq_card, Cube.literalCount_eq_card, hcube] at hcount
  · intro h
    obtain ⟨hwidth, hlits, hhits, hleast⟩ := h
    refine ⟨(isImplicant_iff hoff).mpr ⟨hwidth, hlits, hhits⟩, fun d hd => ?_⟩
    obtain ⟨_, hdlits, hdhits⟩ := (isImplicant_iff hoff).mp hd
    rw [Cube.literalCount_eq_card, Cube.literalCount_eq_card]
    exact hleast _ hdlits hdhits

/-! ## The expansion -/

/-- A list of the minimal covers of the difference matrix is a list of the smallest implicants. -/
theorem map_ofLiterals_spec {covers : List (List Literal)}
    (h : (differenceMatrix f off).ListsMinimalCovers covers) :
    (covers.map (Cube.ofLiterals f.width)) ≠ [] ∧
      (covers.map (Cube.ofLiterals f.width)).Nodup ∧
      ∀ c, c ∈ covers.map (Cube.ofLiterals f.width) ↔ IsSmallestImplicant f off c := by
  have hlits : ∀ C ∈ covers,
      (Cube.ofLiterals f.width C).literals.toFinset = C.toFinset := fun C hC =>
    literals_ofLiterals_toFinset fun l hl =>
      (h.minimal C hC).labels l (List.mem_toFinset.mpr hl)
  refine ⟨by simpa using h.nonempty, ?_, fun c => ?_⟩
  · refine List.Nodup.of_map (fun c : Cube => c.literals.toFinset) ?_
    have hmap : (covers.map (Cube.ofLiterals f.width)).map (fun c => c.literals.toFinset) =
        covers.map List.toFinset := by
      rw [List.map_map]
      exact List.map_congr_left hlits
    rw [hmap]
    exact h.distinct
  · rw [isSmallestImplicant_iff hoff]
    constructor
    · intro hc
      obtain ⟨C, hC, rfl⟩ := List.mem_map.mp hc
      rw [hlits C hC]
      exact ⟨Cube.width_ofLiterals _ _, h.minimal C hC⟩
    · intro heq
      obtain ⟨hwidth, hmin⟩ := heq
      obtain ⟨C, hC, hCc⟩ := h.complete _ hmin
      refine List.mem_map.mpr ⟨C, hC, Cube.ext_literals ?_ fun l => ?_⟩
      · exact (Cube.width_ofLiterals _ _).trans hwidth.symm
      · rw [← List.mem_toFinset, hlits C hC, hCc, List.mem_toFinset]

/-- A vector outside the OFF-set expands into its smallest implicants, each listed once. -/
theorem expand_all_spec (hf : f ∉ off) :
    ∃ cubes, expand f off .all = .ok cubes ∧ cubes ≠ [] ∧ cubes.Nodup ∧
      ∀ c, c ∈ cubes ↔ IsSmallestImplicant f off c := by
  obtain ⟨forced, rest, covers, hsimp, _, hcovers, hlists⟩ :=
    CoverMatrix.simplify_minimalCovers_spec (differenceMatrix_wellFormed f off)
      (differenceMatrix_coverable hoff hf)
  refine ⟨_, ?_, map_ofLiterals_spec hoff hlists⟩
  unfold expand
  rw [hsimp]
  simp only [bind, Except.bind, hcovers, Ties.select, List.map_map]
  rfl

end Expansion

/-- A vector of the OFF-set is not expanded. -/
theorem expand_of_mem (hf : f ∈ off) (ties : Ties) :
    expand f off ties = .error .rowWithoutColumn := by
  unfold expand
  rw [CoverMatrix.simplify_eq_error (not_coverable_differenceMatrix hf)]
  rfl

theorem Ties.mem_of_mem_select {α : Type} {ties : Ties} {l : List α} {a : α}
    (h : a ∈ ties.select l) : a ∈ l := by
  cases ties with
  | all => exact h
  | first => exact List.mem_of_mem_take h

/-- With one of several ties kept, the expansion is the first cube of the list of all. -/
theorem expand_eq_map_all (f : BitVector) (off : List BitVector) (ties : Ties) :
    expand f off ties = (expand f off .all).map ties.select := by
  simp only [expand, bind, Except.bind]
  split
  · rfl
  · next simplified _ =>
    cases simplified.2.minimalCovers with
    | error e => rfl
    | ok covers => cases ties <;> simp [Ties.select, pure, Except.pure, Except.map]

end TwoLevel
