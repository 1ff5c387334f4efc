/-
  The extraction of the mandatory columns, in place and with every index checked.

  Both loops go from the last index to the first and remove columns on the way. What they leave is
  known by the columns which are left of the matrix `m` with which they started:
  `dropUnusedBelow_reindex` for the unused columns, `remaining` for the visit of the rows.
-/
import TwoLevel.Proofs.InPlace.Matrix

namespace TwoLevel.InPlace

open CoverMatrix

variable {L : Type} {m : CoverMatrix L}

/-! ## Unused columns -/

/-- Drops the columns below `c` which no row has, from the last one to the first. -/
def dropUnusedBelow : Nat → CoverMatrix L → Option (CoverMatrix L)
  | 0, m => some m
  | c + 1, m => do
    if m.rows.all fun r => !r.contains c then
      let (_, rest) ← removeColumn m c
      dropUnusedBelow c rest
    else
      dropUnusedBelow c m

/-- Drops the columns which no row has. -/
def dropUnused (m : CoverMatrix L) : Option (CoverMatrix L) :=
  dropUnusedBelow m.columnCount m

/-- In a matrix where column `c` stands at its old place, the rows have it as they had it. -/
theorem all_not_contains_reindex {order : List Nat} {c : Nat} (h : order[c]? = some c) :
    ((m.reindex order).rows.all fun r => !r.contains c) = !m.rows.any (·.contains c) := by
  have hcontains : ∀ r : Row, (Row.positions r.contains order).contains c = r.contains c := by
    intro r
    rw [Bool.eq_iff_iff, Row.contains_iff, Row.contains_iff, mem_positions_contains, h]
    simp
  simp only [reindex, List.all_map, Function.comp_def, hcontains, List.not_any_eq_all_not]

/-- The columns below `c` are still those of `m`; of them, the loop keeps the used ones. -/
theorem dropUnusedBelow_reindex {c : Nat} (hc : c ≤ m.labels.length) {later : List Nat}
    (hlater : ∀ d ∈ later, d < m.labels.length) :
    dropUnusedBelow c (m.reindex (List.range c ++ later)) =
      some (m.reindex ((List.range c).filter (fun d => m.rows.any (·.contains d)) ++ later)) := by
  induction c generalizing later with
  | zero => rfl
  | succ c ih =>
    have horder : ∀ d ∈ List.range (c + 1) ++ later, d < m.labels.length := by
      intro d hd
      rcases List.mem_append.mp hd with hd | hd
      · have hlt : d < c + 1 := List.mem_range.mp hd
        omega
      · exact hlater d hd
    have hsplit : List.range (c + 1) ++ later = List.range c ++ c :: later := by
      rw [List.range_succ, List.append_assoc]
      rfl
    have hplace : (List.range (c + 1) ++ later)[c]? = some c := by
      rw [hsplit, List.getElem?_append_right (by simp)]
      simp
    rw [dropUnusedBelow, all_not_contains_reindex hplace]
    cases hused : m.rows.any (·.contains c) with
    | true =>
      have hlater' : ∀ d ∈ c :: later, d < m.labels.length :=
        List.forall_mem_cons.mpr ⟨by omega, hlater⟩
      have hkeep := ih (by omega) hlater'
      rw [hsplit, List.range_succ, List.filter_append, List.filter_singleton, hused]
      simpa using hkeep
    | false =>
      obtain ⟨label, hlabel⟩ := Option.isSome_iff_exists.mp (isSome_getElem? hc)
      have herase : (List.range (c + 1) ++ later).eraseIdx c = List.range c ++ later := by
        rw [hsplit, List.eraseIdx_append_of_length_le (by simp)]
        simp
      simp only [Bool.not_false, if_true, removeColumn_reindex_refines horder hplace hlabel,
        herase, Option.bind_eq_bind, Option.bind_some]
      rw [ih (by omega) hlater, List.range_succ, List.filter_append, List.filter_singleton, hused]
      simp

theorem dropUnused_refines (h : m.InBounds) : InPlace.dropUnused m = some m.dropUnused := by
  have hnone : ∀ d ∈ ([] : List Nat), d < m.labels.length := by simp
  have hloop := dropUnusedBelow_reindex (Nat.le_refl _) hnone
  rw [List.append_nil, List.append_nil] at hloop
  have hstart : m.reindex (List.range m.labels.length) = m := reindex_columns h
  rw [hstart] at hloop
  exact hloop

/-! ## Mandatory columns -/

/-- Visits the rows below `idx`, from the last one to the first. The labels of the columns which
    they force are added to the given ones. -/
def extractBelow : Nat → List L → CoverMatrix L →
    Option (Except Defect (List L) × CoverMatrix L)
  | 0, mandatory, m => some (.ok mandatory, m)
  | idx + 1, mandatory, m => do
    let row ← m.rows[idx]?
    match row.columns with
    | [] => return (.error .rowWithoutColumn, m)
    | [c] =>
      let rows ← removeAt m.rows idx
      let (label, rest) ← removeColumn ⟨rows, m.labels⟩ c
      extractBelow idx (mandatory ++ [label]) rest
    | _ => extractBelow idx mandatory m

/-- Drops the unused columns, then selects the mandatory ones. -/
def extractMandatory (m : CoverMatrix L) :
    Option (Except Defect (List L) × CoverMatrix L) := do
  let used ← dropUnused m
  extractBelow used.rowCount [] used

/-- The columns which are left once some are selected. -/
def freeColumns (m : CoverMatrix L) (forced : List Nat) : List Nat :=
  m.columns.filter fun c => decide (c ∉ forced)

/-- The matrix with the rows `front` still to visit, after the visit `s` of the others. -/
def remaining (m : CoverMatrix L) (front : List Row) (s : MandatoryScan) : CoverMatrix L :=
  reindex ⟨front ++ s.kept, m.labels⟩ (freeColumns m s.forced)

/-- The result of the visit of all rows. -/
def outcome (m : CoverMatrix L) (s : MandatoryScan) :
    Except Defect (List L) × CoverMatrix L :=
  (if s.failed then .error .rowWithoutColumn else .ok (m.labelsAt s.forced), remaining m [] s)

theorem lt_of_mem_freeColumns {forced : List Nat} :
    ∀ c ∈ freeColumns m forced, c < m.labels.length :=
  fun _ hc => mem_columns.mp (List.mem_filter.mp hc).1

/-- The place of a selected column is the one which its removal takes out. -/
theorem eraseIdx_freeColumns {forced : List Nat} {j c : Nat}
    (hj : (freeColumns m forced)[j]? = some c) :
    (freeColumns m forced).eraseIdx j = freeColumns m (forced ++ [c]) := by
  have hnodup : (freeColumns m forced).Nodup := List.nodup_range.filter _
  obtain ⟨hlt, hget⟩ := List.getElem?_eq_some_iff.mp hj
  rw [← hnodup.erase_getElem j hlt, hget, hnodup.erase_eq_filter, freeColumns, freeColumns,
    List.filter_filter]
  refine List.filter_congr fun d _ => ?_
  by_cases hd : d = c <;> simp [hd]

/-- The columns which a row still has, by their first indices. -/
theorem lookup_freeColumns {r : Row} (hr : ∀ c ∈ r, c < m.labels.length) (forced : List Nat) :
    (Row.positions r.contains (freeColumns m forced)).columns.filterMap
      ((freeColumns m forced)[·]?) = r.columns.filter fun c => decide (c ∉ forced) := by
  rw [lookup_positions]
  refine List.Pairwise.eq_of_mem_iff ?_ (r.ascending.sublist List.filter_sublist) fun c => ?_
  · exact (List.pairwise_lt_range.sublist List.filter_sublist).sublist List.filter_sublist
  · simp only [freeColumns, List.mem_filter, Row.contains_iff, mem_columns]
    exact ⟨fun h => ⟨h.2, h.1.2⟩, fun h => ⟨⟨hr c h.1, h.2⟩, h.1⟩⟩

theorem lt_of_mem_positions {r : Row} {order : List Nat} :
    ∀ k ∈ (Row.positions r.contains order).columns, k < order.length := by
  intro k hk
  obtain ⟨c, hc, _⟩ := mem_positions_contains.mp hk
  exact (List.getElem?_eq_some_iff.mp hc).1

theorem getElem?_remaining (front : List Row) (r : Row) (s : MandatoryScan) :
    (remaining m (front ++ [r]) s).rows[front.length]? =
      some (.positions r.contains (freeColumns m s.forced)) := by
  simp [remaining, reindex]

/-- A visit which has failed changes nothing any more. -/
theorem foldr_visit_of_failed {s : MandatoryScan} (h : s.failed = true) (front : List Row) :
    front.foldr MandatoryScan.visit s = ⟨s.forced, front ++ s.kept, true⟩ := by
  induction front with
  | nil => rw [← h]; rfl
  | cons r front ih =>
    rw [List.foldr_cons, ih]
    rfl

theorem removeAt_remaining (front : List Row) (r : Row) (s : MandatoryScan) :
    removeAt (remaining m (front ++ [r]) s).rows front.length =
      some (remaining m front s).rows := by
  have h := removeAt_append
    (front.map fun r => Row.positions r.contains (freeColumns m s.forced))
    (.positions r.contains (freeColumns m s.forced))
    (s.kept.map fun r => Row.positions r.contains (freeColumns m s.forced))
  simpa [remaining, reindex] using h

theorem removeColumn_remaining (front : List Row) {s : MandatoryScan} {j c : Nat}
    (hj : (freeColumns m s.forced)[j]? = some c) {label : L} (hlabel : m.labels[c]? = some label) :
    InPlace.removeColumn (remaining m front s) j =
      some (label, remaining m front { s with forced := s.forced ++ [c] }) := by
  have horder : ∀ c ∈ freeColumns m s.forced,
      c < (⟨front ++ s.kept, m.labels⟩ : CoverMatrix L).labels.length := lt_of_mem_freeColumns
  have hremove := removeColumn_reindex_refines horder hj hlabel
  rw [eraseIdx_freeColumns hj] at hremove
  exact hremove

theorem labelsAt_concat {cols : List Nat} {c : Nat} {label : L} (h : m.labels[c]? = some label) :
    m.labelsAt (cols ++ [c]) = m.labelsAt cols ++ [label] := by
  rw [labelsAt, lookup_append, List.filterMap_cons_some h]
  rfl

section Visit

variable {r : Row} (hr : ∀ c ∈ r, c < m.labels.length) {s : MandatoryScan}

include hr

/-- A row without free columns has no column left. -/
theorem columns_of_free_nil (hfree : (r.columns.filter fun c => decide (c ∉ s.forced)) = []) :
    (Row.positions r.contains (freeColumns m s.forced)).columns = [] := by
  have hlookup := lookup_freeColumns hr s.forced
  rw [hfree] at hlookup
  exact eq_nil_of_lookup_eq_nil lt_of_mem_positions hlookup

/-- The columns left of a row which has a free one begin with the place of this column. -/
theorem columns_of_free_cons {c : Nat} {cs : List Nat}
    (hfree : (r.columns.filter fun c => decide (c ∉ s.forced)) = c :: cs) :
    ∃ j js, (Row.positions r.contains (freeColumns m s.forced)).columns = j :: js ∧
      (freeColumns m s.forced)[j]? = some c ∧ js.length = cs.length := by
  have hlookup := lookup_freeColumns hr s.forced
  have hrange : ∀ k ∈ (Row.positions r.contains (freeColumns m s.forced)).columns,
      k < (freeColumns m s.forced).length := lt_of_mem_positions
  rw [hfree] at hlookup
  obtain ⟨j, js, hcols, hj, hjs⟩ := exists_cons_of_lookup_eq_cons hrange hlookup
  rw [hcols] at hrange
  refine ⟨j, js, hcols, hj, ?_⟩
  rw [← hjs, length_lookup fun k hk => hrange k (List.mem_cons_of_mem j hk)]

/-- One round of the loop is one visit of the scan. -/
theorem extractBelow_step (hok : s.failed = false) (front : List Row) :
    extractBelow (front.length + 1) (m.labelsAt s.forced) (remaining m (front ++ [r]) s) =
      if (MandatoryScan.visit r s).failed then
        some (.error .rowWithoutColumn, remaining m front (MandatoryScan.visit r s))
      else
        extractBelow front.length (m.labelsAt (MandatoryScan.visit r s).forced)
          (remaining m front (MandatoryScan.visit r s)) := by
  rw [extractBelow, getElem?_remaining, Option.bind_eq_bind, Option.bind_some]
  match hfree : r.columns.filter fun c => decide (c ∉ s.forced) with
  | [] =>
    have hvisit : MandatoryScan.visit r s = ⟨s.forced, r :: s.kept, true⟩ := by
      simp only [MandatoryScan.visit, hok, hfree, Bool.false_eq_true, if_false]
    rw [columns_of_free_nil hr hfree, hvisit, remaining, remaining, List.append_assoc]
    rfl
  | [c] =>
    obtain ⟨j, js, hcols, hj, hjs⟩ := columns_of_free_cons hr hfree
    obtain rfl : js = [] := List.eq_nil_of_length_eq_zero hjs
    have hc : c ∈ r := (List.mem_filter.mp (hfree ▸ List.mem_singleton_self c)).1
    obtain ⟨label, hlabel⟩ := Option.isSome_iff_exists.mp (isSome_getElem? (hr c hc))
    have hvisit : MandatoryScan.visit r s = { s with forced := s.forced ++ [c] } := by
      simp only [MandatoryScan.visit, hok, hfree, Bool.false_eq_true, if_false]
    have hmatrix : (⟨(remaining m front s).rows, (remaining m (front ++ [r]) s).labels⟩ :
        CoverMatrix L) = remaining m front s := rfl
    rw [hcols, hvisit, if_neg (by simp [hok]), labelsAt_concat hlabel]
    simp only [removeAt_remaining, Option.bind_eq_bind, Option.bind_some, hmatrix,
      removeColumn_remaining front hj hlabel]
  | c :: d :: cs =>
    obtain ⟨j, js, hcols, _, hjs⟩ := columns_of_free_cons hr hfree
    obtain ⟨k, ks, rfl⟩ : ∃ k ks, js = k :: ks := List.exists_cons_of_length_eq_add_one hjs
    have hvisit : MandatoryScan.visit r s = { s with kept := r :: s.kept } := by
      simp only [MandatoryScan.visit, hok, hfree, Bool.false_eq_true, if_false]
    rw [hcols, hvisit, if_neg (by simp [hok]), remaining, remaining, List.append_assoc]
    rfl

end Visit

/-- The loop does what the scan of the rows does. -/
theorem extractBelow_refines {s : MandatoryScan} (hok : s.failed = false) {front : List Row}
    (hfront : ∀ r ∈ front, ∀ c ∈ r, c < m.labels.length) :
    extractBelow front.length (m.labelsAt s.forced) (remaining m front s) =
      some (outcome m (front.foldr MandatoryScan.visit s)) := by
  induction front using List.reverseRecOn generalizing s with
  | nil =>
    rw [List.foldr_nil, outcome, hok]
    rfl
  | append_singleton front r ih =>
    have hr : ∀ c ∈ r, c < m.labels.length := hfront r (by simp)
    have hrest : ∀ q ∈ front, ∀ c ∈ q, c < m.labels.length :=
      fun q hq => hfront q (List.mem_append_left [r] hq)
    rw [List.length_append, List.length_singleton, extractBelow_step hr hok, List.foldr_append,
      List.foldr_cons, List.foldr_nil]
    cases hfailed : (MandatoryScan.visit r s).failed with
    | true =>
      rw [if_pos rfl, foldr_visit_of_failed hfailed]
      rfl
    | false =>
      rw [if_neg (by simp)]
      exact ih hfailed hrest

theorem extractMandatory_refines (h : m.InBounds) :
    InPlace.extractMandatory m = some m.extractMandatory := by
  have hused : m.dropUnused.InBounds := reindex_inBounds fun _ => lt_of_mem_usedColumns
  have hfree : freeColumns m.dropUnused [] = m.dropUnused.columns :=
    List.filter_eq_self.mpr fun c _ => by simp
  have hstart : remaining m.dropUnused m.dropUnused.rows ⟨[], [], false⟩ = m.dropUnused := by
    rw [remaining, hfree, List.append_nil]
    exact reindex_columns hused
  have hloop := @extractBelow_refines L m.dropUnused ⟨[], [], false⟩ rfl _ hused
  rw [hstart] at hloop
  unfold InPlace.extractMandatory
  rw [dropUnused_refines h]
  exact hloop

end TwoLevel.InPlace
