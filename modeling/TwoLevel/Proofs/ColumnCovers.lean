/-
  The minimal covers of a matrix, as lists of column indices.

  The search lists them completely (`minimalCoverColumns_smallest`): every smallest set of existing
  columns which hits all rows stands in the result, as an ascending list, and the lists come in
  lexicographic order. It fails exactly if some row has none of the columns. Labels play no part.
-/
import TwoLevel.Proofs.CoverSearch

namespace TwoLevel.CoverMatrix

variable {L : Type} {m : CoverMatrix L}

/-- A set of existing columns such that every row has one of them. -/
structure IsSelection (m : CoverMatrix L) (S : Finset Nat) : Prop where
  existing : ∀ c ∈ S, c < m.labels.length
  hits : ∀ r ∈ m.rows, ∃ c ∈ S, c ∈ r

/-- A selection such that no selection has fewer columns. -/
structure IsSmallestSelection (m : CoverMatrix L) (S : Finset Nat) : Prop
    extends IsSelection m S where
  least : ∀ T : Finset Nat, m.IsSelection T → S.card ≤ T.card

/-! ## Selections as ascending lists -/

theorem sublist_columns_iff {sel : List Nat} :
    sel.Sublist m.columns ↔ sel.Pairwise (· < ·) ∧ ∀ c ∈ sel, c < m.labels.length := by
  constructor
  · intro h
    exact ⟨List.pairwise_lt_range.sublist h, lt_of_mem_sublist h⟩
  · intro h
    obtain ⟨hasc, hlt⟩ := h
    have hsub : sel ⊆ m.columns := fun c hc => mem_columns.mpr (hlt c hc)
    exact List.sublist_of_subperm_of_pairwise (List.subperm_of_subset hasc.nodup hsub) hasc
      List.pairwise_lt_range

/-- A list of columns is a selection if the columns exist and cover the matrix. -/
theorem isSelection_toFinset_iff {sel : List Nat} :
    m.IsSelection sel.toFinset ↔
      (∀ c ∈ sel, c < m.labels.length) ∧ m.isCoveredBy sel = true := by
  rw [isCoveredBy_iff]
  constructor
  · intro h
    refine ⟨fun c hc => h.existing c (List.mem_toFinset.mpr hc), fun r hr => ?_⟩
    obtain ⟨c, hc, hcr⟩ := h.hits r hr
    exact ⟨c, List.mem_toFinset.mp hc, hcr⟩
  · intro h
    obtain ⟨hexisting, hhits⟩ := h
    refine ⟨fun c hc => hexisting c (List.mem_toFinset.mp hc), fun r hr => ?_⟩
    obtain ⟨c, hc, hcr⟩ := hhits r hr
    exact ⟨c, List.mem_toFinset.mpr hc, hcr⟩

theorem mem_selections_columns {k : Nat} {sel : List Nat} :
    sel ∈ selections k m.columns m.rows ↔
      sel.Pairwise (· < ·) ∧ m.IsSelection sel.toFinset ∧ sel.length = k := by
  rw [mem_selections, sublist_columns_iff, isSelection_toFinset_iff]
  constructor
  · intro h
    obtain ⟨⟨hasc, hlt⟩, hlen, hcover⟩ := h
    exact ⟨hasc, ⟨hlt, hcover⟩, hlen⟩
  · intro h
    obtain ⟨hasc, ⟨hlt, hcover⟩, hlen⟩ := h
    exact ⟨⟨hasc, hlt⟩, hlen, hcover⟩

/-- A selection is found among those of its size. -/
theorem sort_mem_selections {S : Finset Nat} (h : m.IsSelection S) :
    S.sort ∈ selections S.card m.columns m.rows :=
  mem_selections_columns.mpr
    ⟨S.sortedLT_sort.pairwise, by rwa [Finset.sort_toFinset], S.length_sort _⟩

/-! ## The result of the search -/

/-- The lists of the first size for which there are any are the smallest selections. -/
theorem mem_selections_least_iff {k : Nat} (hne : selections k m.columns m.rows ≠ [])
    (hleast : ∀ j < k, selections j m.columns m.rows = []) {sel : List Nat} :
    sel ∈ selections k m.columns m.rows ↔
      sel.Pairwise (· < ·) ∧ m.IsSmallestSelection sel.toFinset := by
  have hsize : ∀ T : Finset Nat, m.IsSelection T → k ≤ T.card :=
    fun T hT => le_of_mem_selections hleast (sort_mem_selections hT)
  have hcard : ∀ {l : List Nat}, l.Pairwise (· < ·) → l.toFinset.card = l.length :=
    fun hasc => List.toFinset_card_of_nodup hasc.nodup
  rw [mem_selections_columns]
  constructor
  · intro h
    obtain ⟨hasc, hsel, hlen⟩ := h
    refine ⟨hasc, hsel, fun T hT => ?_⟩
    rw [hcard hasc, hlen]
    exact hsize T hT
  · intro h
    obtain ⟨hasc, hsel, hmin⟩ := h
    refine ⟨hasc, hsel, Nat.le_antisymm ?_ ?_⟩
    · obtain ⟨other, hother⟩ := List.exists_mem_of_ne_nil _ hne
      obtain ⟨hotherAsc, hotherSel, hotherLen⟩ := mem_selections_columns.mp hother
      rw [← hcard hasc, ← hotherLen, ← hcard hotherAsc]
      exact hmin _ hotherSel
    · rw [← hcard hasc]
      exact hsize _ hsel

/-- Without rows the first size is 0, and the empty selection is the only one. -/
theorem selections_least_of_no_rows (hrows : m.rows = []) {k : Nat}
    (hleast : ∀ j < k, selections j m.columns m.rows = []) :
    selections k m.columns m.rows = [[]] := by
  cases k with
  | zero => simp [hrows, selections]
  | succ k =>
    have hnone := hleast 0 (Nat.succ_pos k)
    simp [hrows, selections] at hnone

/-- The search fails exactly if some row has none of the columns. Else it lists the smallest sets
    of columns which hit every row, each once and as an ascending list, in lexicographic order;
    without rows this is the empty selection. -/
theorem minimalCoverColumns_smallest (m : CoverMatrix L) :
    (∀ d, m.minimalCoverColumns = .error d ↔
      d = .noCover ∧ ∃ r ∈ m.rows, ∀ c < m.labels.length, c ∉ r) ∧
    ((∀ r ∈ m.rows, ∃ c < m.labels.length, c ∈ r) →
      ∃ covers, m.minimalCoverColumns = .ok covers ∧
        (∀ sel, sel ∈ covers ↔ sel.Pairwise (· < ·) ∧ m.IsSmallestSelection sel.toFinset) ∧
        covers.Pairwise (List.Lex (· < ·)) ∧ (m.rows = [] → covers = [[]])) := by
  constructor
  · intro d
    rw [← not_isCoveredBy_columns_iff]
    by_cases h : m.isCoveredBy m.columns = true
    · obtain ⟨k, heq, _⟩ := minimalCoverColumns_spec h
      simp [heq, h]
    · rw [minimalCoverColumns_eq_error h, Except.error.injEq]
      exact ⟨fun heq => ⟨heq.symm, h⟩, fun heq => heq.1.symm⟩
  · intro h
    have hcover : m.isCoveredBy m.columns = true :=
      isCoveredBy_iff.mpr fun r hr => by simpa [mem_columns] using h r hr
    obtain ⟨k, heq, hne, hleast⟩ := minimalCoverColumns_spec hcover
    exact ⟨_, heq, fun sel => mem_selections_least_iff hne hleast,
      selections_pairwise List.pairwise_lt_range,
      fun hrows => selections_least_of_no_rows hrows hleast⟩

example :
    (⟨[.ofList [0, 1], .ofList [1, 2], .ofList [2, 3]], [(), (), (), ()]⟩ :
      CoverMatrix Unit).minimalCoverColumns.toOption = some [[0, 2], [1, 2], [1, 3]] := by
  decide +kernel

end TwoLevel.CoverMatrix
