/-
  The search of the minimal covers, before and after the reductions which take nothing away.

  The search looks at a matrix only through the number of its columns and the selections which
  cover it (`minimalCoverColumns_congr`). The removal of dominated rows changes neither, hence not
  even the order of the result. A new order of the columns renumbers them: if the columns are
  labelled by their places (`labelledByPlace`), the minimal covers by label are the same before and
  after (`SameCovers.isMinimalCover_iff`), and the labels tell where each column stood.
-/
import TwoLevel.Proofs.ColumnCovers
import TwoLevel.Proofs.InPlace.Matrix

namespace TwoLevel

/-- The selections are known by which lists of columns hit all rows. -/
theorem selections_congr {cols : List Nat} (hcols : cols.Pairwise (· < ·)) {rows others : List Row}
    (h : ∀ sel : List Nat, (rows.all (·.meets sel)) = others.all (·.meets sel)) (k : Nat) :
    selections k cols rows = selections k cols others := by
  refine (selections_pairwise hcols).eq_of_mem_iff (selections_pairwise hcols) fun sel => ?_
  rw [mem_selections, mem_selections, h]

namespace CoverMatrix

variable {L : Type} {m : CoverMatrix L}

theorem minimalCoverColumns_congr {K : Type} {n : CoverMatrix K}
    (hlength : m.labels.length = n.labels.length)
    (hcover : ∀ cols, m.isCoveredBy cols = n.isCoveredBy cols) :
    m.minimalCoverColumns = n.minimalCoverColumns := by
  have hcolumns : m.columns = n.columns := congrArg List.range hlength
  have hselections : ∀ k, selections k m.columns m.rows = selections k n.columns n.rows := by
    intro k
    rw [hcolumns]
    exact selections_congr List.pairwise_lt_range hcover k
  have hsize : m.coversOfSize? = n.coversOfSize? := by
    funext k
    unfold coversOfSize?
    rw [hselections]
  unfold minimalCoverColumns columnCount
  rw [hlength, hsize]

/-! ## Dominated rows -/

theorem isCoveredBy_reduce (m : CoverMatrix L) (cols : List Nat) :
    m.reduce.isCoveredBy cols = m.isCoveredBy cols := by
  rw [Bool.eq_iff_iff, isCoveredBy_iff, isCoveredBy_iff]
  constructor
  · intro h r hr
    obtain ⟨s, hs, hsr⟩ := exists_mem_reduceDominated_subset hr
    obtain ⟨c, hc, hcs⟩ := h s hs
    exact ⟨c, hc, Row.subset_iff.mp hsr c hcs⟩
  · intro h r hr
    exact h r (mem_of_mem_reduceDominated hr)

theorem minimalCoverColumns_reduce (m : CoverMatrix L) :
    m.reduce.minimalCoverColumns = m.minimalCoverColumns :=
  minimalCoverColumns_congr rfl m.isCoveredBy_reduce

/-! ## Minimal covers by label -/

theorem SameCovers.isMinimalCover_iff {n : CoverMatrix L} (h : m.SameCovers n) {S : Finset L} :
    n.IsMinimalCover S ↔ m.IsMinimalCover S := by
  constructor
  · intro hS
    refine ⟨fun l hl => (h.labels l).mp (hS.labels l hl), (h.hits S).mp hS.hits, ?_⟩
    intro T hT hTm
    exact hS.least T (fun l hl => (h.labels l).mpr (hT l hl)) ((h.hits T).mpr hTm)
  · intro hS
    refine ⟨fun l hl => (h.labels l).mpr (hS.labels l hl), (h.hits S).mpr hS.hits, ?_⟩
    intro T hT hTn
    exact hS.least T (fun l hl => (h.labels l).mp (hT l hl)) ((h.hits T).mp hTn)

section Lists

variable [DecidableEq L]

/-- Two lists of the same minimal covers have the same sets, each as often. -/
theorem ListsMinimalCovers.perm {n : CoverMatrix L} {covers others : List (List L)}
    (hm : m.ListsMinimalCovers covers) (hn : n.ListsMinimalCovers others)
    (hiff : ∀ S : Finset L, m.IsMinimalCover S ↔ n.IsMinimalCover S) :
    (covers.map List.toFinset).Perm (others.map List.toFinset) := by
  refine (List.perm_ext_iff_of_nodup hm.distinct hn.distinct).mpr fun S => ?_
  rw [List.mem_map, List.mem_map, ← hm.isMinimalCover_iff, ← hn.isMinimalCover_iff, hiff]

theorem listsMinimalCovers_of_eq_ok (hm : m.WellFormed) {covers : List (List Nat)}
    (h : m.minimalCoverColumns = .ok covers) :
    m.ListsMinimalCovers (covers.map m.labelsAt) := by
  have hcov : m.isCoveredBy m.columns = true := by
    by_contra hnot
    rw [minimalCoverColumns_eq_error hnot] at h
    cases h
  obtain ⟨k, heq, hne, hleast⟩ := minimalCoverColumns_spec hcov
  obtain rfl := Except.ok.inj (h.symm.trans heq)
  exact selections_listsMinimalCovers hm hne hleast

end Lists

/-! ## Columns in a new order -/

/-- The matrix whose columns are labelled by the places where they stand. -/
def labelledByPlace (m : CoverMatrix L) : CoverMatrix Nat :=
  ⟨m.rows, m.columns⟩

theorem length_labelledByPlace : m.labelledByPlace.labels.length = m.labels.length :=
  List.length_range

theorem labelledByPlace_wellFormed (h : m.InBounds) : m.labelledByPlace.WellFormed :=
  ⟨fun r hr c hc => lt_of_lt_of_eq (h r hr c hc) length_labelledByPlace.symm, List.nodup_range⟩

theorem minimalCoverColumns_labelledByPlace :
    m.labelledByPlace.minimalCoverColumns = m.minimalCoverColumns :=
  minimalCoverColumns_congr length_labelledByPlace fun _ => rfl

/-- The label of an existing column is the column. -/
theorem labelsAt_labelledByPlace {cols : List Nat} (h : ∀ c ∈ cols, c < m.labels.length) :
    m.labelledByPlace.labelsAt cols = cols := by
  refine (List.filterMap_congr fun c hc => ?_).trans List.filterMap_some
  exact List.getElem?_range (h c hc)

theorem weightOrder_labelledByPlace : m.labelledByPlace.weightOrder = m.weightOrder := by
  have hcolumns : m.labelledByPlace.columns = m.columns :=
    congrArg List.range length_labelledByPlace
  unfold weightOrder
  rw [hcolumns]
  rfl

/-- After the sort the labels tell where the columns stood before. -/
theorem sortColumns_labelledByPlace :
    m.labelledByPlace.sortColumns = ⟨m.sortColumns.rows, m.weightOrder⟩ := by
  have hsort : m.labelledByPlace.sortColumns = m.labelledByPlace.reindex m.weightOrder := by
    rw [← weightOrder_labelledByPlace]
    rfl
  rw [hsort]
  exact congrArg (mk _) (labelsAt_labelledByPlace fun _ hc => mem_weightOrder.mp hc)

theorem minimalCoverColumns_sortColumns_labelledByPlace :
    m.labelledByPlace.sortColumns.minimalCoverColumns = m.sortColumns.minimalCoverColumns := by
  rw [sortColumns_labelledByPlace]
  refine minimalCoverColumns_congr ?_ fun _ => rfl
  exact (length_reindex_labels fun _ hc => mem_weightOrder.mp hc).symm

/-- The search fails on a matrix exactly if it has an empty row. -/
theorem minimalCoverColumns_eq_error_iff (h : m.InBounds) {d : Defect} :
    m.minimalCoverColumns = .error d ↔ d = .noCover ∧ ¬ m.Coverable := by
  rw [← isCoveredBy_columns_iff h]
  by_cases hcov : m.isCoveredBy m.columns = true
  · obtain ⟨k, heq, _⟩ := minimalCoverColumns_spec hcov
    simp [heq, hcov]
  · rw [minimalCoverColumns_eq_error hcov, Except.error.injEq]
    exact ⟨fun heq => ⟨heq.symm, hcov⟩, fun heq => heq.1.symm⟩

theorem minimalCoverColumns_sortColumns_eq_error_iff (h : m.InBounds) {d : Defect} :
    m.sortColumns.minimalCoverColumns = .error d ↔ m.minimalCoverColumns = .error d := by
  have hsorted : m.sortColumns.InBounds := reindex_inBounds fun _ hc => mem_weightOrder.mp hc
  have hcov : m.sortColumns.Coverable ↔ m.Coverable :=
    ⟨coverable_of_reindex, sortColumns_coverable h⟩
  rw [minimalCoverColumns_eq_error_iff hsorted, minimalCoverColumns_eq_error_iff h, hcov]

/-- The covers found after the sort, each column read at its old place, are those found before. -/
theorem minimalCoverColumns_sortColumns (h : m.InBounds) {covers : List (List Nat)}
    (hok : m.minimalCoverColumns = .ok covers) :
    ∃ sorted, m.sortColumns.minimalCoverColumns = .ok sorted ∧
      (sorted.map fun sel => (sel.filterMap (m.weightOrder[·]?)).toFinset).Perm
        (covers.map List.toFinset) := by
  have hplace := labelledByPlace_wellFormed h
  cases hsorted : m.sortColumns.minimalCoverColumns with
  | error d =>
    rw [(minimalCoverColumns_sortColumns_eq_error_iff h).mp hsorted] at hok
    cases hok
  | ok sorted =>
    refine ⟨sorted, rfl, ?_⟩
    have hbefore := listsMinimalCovers_of_eq_ok hplace
      (minimalCoverColumns_labelledByPlace.trans hok)
    have hafter := listsMinimalCovers_of_eq_ok (sortColumns_wellFormed hplace)
      (minimalCoverColumns_sortColumns_labelledByPlace.trans hsorted)
    have hperm := hafter.perm hbefore fun _ => (sameCovers_sortColumns hplace).isMinimalCover_iff
    have hold : (covers.map m.labelledByPlace.labelsAt) = covers := by
      obtain ⟨k, rfl⟩ := eq_selections_of_minimalCoverColumns hok
      refine (List.map_congr_left fun sel hsel => ?_).trans (List.map_id _)
      exact labelsAt_labelledByPlace (lt_of_mem_sublist (mem_selections.mp hsel).1)
    rw [hold, List.map_map, sortColumns_labelledByPlace] at hperm
    exact hperm

end CoverMatrix

/-- The removal of dominated rows changes neither the selections which cover a matrix nor the
    result of the search. The sort of the columns puts the column `weightOrder[k]` in place `k`, and
    the search then fails in the same cases and finds the same sets of columns, each as often. The
    operations in place agree. -/
theorem reductions_keep_search {L : Type} {m : CoverMatrix L} (h : m.InBounds) :
    InPlace.reduceDominated m.rows = some m.reduce.rows ∧
    InPlace.sortColumns m = some m.sortColumns ∧
    (∀ cols, m.reduce.isCoveredBy cols = m.isCoveredBy cols) ∧
    m.reduce.minimalCoverColumns = m.minimalCoverColumns ∧
    m.weightOrder.Perm m.columns ∧ m.sortColumns = m.reindex m.weightOrder ∧
    (∀ d, m.sortColumns.minimalCoverColumns = .error d ↔ m.minimalCoverColumns = .error d) ∧
    ∀ covers, m.minimalCoverColumns = .ok covers →
      ∃ sorted, m.sortColumns.minimalCoverColumns = .ok sorted ∧
        (sorted.map fun sel => (sel.filterMap (m.weightOrder[·]?)).toFinset).Perm
          (covers.map List.toFinset) :=
  ⟨InPlace.reduceDominated_refines m.rows, InPlace.sortColumns_refines m,
    m.isCoveredBy_reduce, m.minimalCoverColumns_reduce, CoverMatrix.weightOrder_perm, rfl,
    fun _ => CoverMatrix.minimalCoverColumns_sortColumns_eq_error_iff h,
    fun _ hok => CoverMatrix.minimalCoverColumns_sortColumns h hok⟩

/-- The sort puts the columns 1 and 2, which three rows have, before column 0, so that the three
    covers are found in another order. -/
theorem reductions_keep_search_tied :
    let m : CoverMatrix Char :=
      ⟨[.ofList [0, 2], .ofList [1, 2], .ofList [0, 1, 2], .ofList [1, 3]], ['a', 'b', 'c', 'd']⟩
    m.InBounds ∧ m.minimalCoverColumns = .ok [[0, 1], [1, 2], [2, 3]] ∧
      m.reduce.minimalCoverColumns = m.minimalCoverColumns ∧
      m.sortColumns.minimalCoverColumns = .ok [[0, 1], [0, 2], [1, 3]] ∧
      ([[0, 1], [0, 2], [1, 3]].map fun sel : List Nat =>
        (sel.filterMap (m.weightOrder[·]?)).toFinset).Perm
          ([[0, 1], [1, 2], [2, 3]].map List.toFinset) := by
  intro m
  have hbounds : m.InBounds := by decide
  have hbefore : m.minimalCoverColumns = .ok [[0, 1], [1, 2], [2, 3]] := by decide +kernel
  have hafter : m.sortColumns.minimalCoverColumns = .ok [[0, 1], [0, 2], [1, 3]] := by
    decide +kernel
  obtain ⟨_, _, _, hreduce, _, _, _, hsort⟩ := reductions_keep_search hbounds
  obtain ⟨sorted, hok, hperm⟩ := hsort _ hbefore
  obtain rfl := Except.ok.inj (hafter.symm.trans hok)
  exact ⟨hbounds, hbefore, hreduce, hafter, hperm⟩

end TwoLevel
