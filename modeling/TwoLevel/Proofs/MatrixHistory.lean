/-
  Series of operations on a covering matrix.

  Rows name columns by index, and every operation renumbers them together with the labels. What a
  matrix keeps of the one it comes from is therefore said in labels (`DerivedFrom`): its labels are
  some of the old ones, and the labels of each of its rows are those of some old row, as far as
  they are left. One operation keeps this (`perform?_spec`), it can be chained
  (`DerivedFrom.trans`), and so it holds after any series of operations, failed extractions
  included (`operations_keep_rows`). The operations in place, which shift the indices in every row,
  go through the same matrices (`InPlace.run_refines`).
-/
import TwoLevel.Proofs.InPlace.Mandatory

namespace TwoLevel

/-- The operations which change a covering matrix. -/
inductive Operation where
  | reduce
  | sortColumns
  | removeColumn (c : Nat)
  | extractMandatory
  deriving DecidableEq

/-- The rows which an extraction keeps are rows which it has visited. -/
theorem MandatoryScan.kept_subset (rows : List Row) :
    ∀ r ∈ (MandatoryScan.ofRows rows).kept, r ∈ rows := by
  induction rows with
  | nil => exact fun _ hr => hr
  | cons q rows ih =>
    have hold : ∀ r ∈ (MandatoryScan.ofRows rows).kept, r ∈ q :: rows :=
      fun r hr => List.mem_cons_of_mem q (ih r hr)
    rw [ofRows_cons]
    rcases visit_cases q (ofRows rows) with ⟨_, heq⟩ | ⟨_, _, _, _, heq⟩ | ⟨_, heq⟩ <;> rw [heq]
    · exact List.forall_mem_cons.mpr ⟨List.mem_cons_self, hold⟩
    · exact hold
    · exact List.forall_mem_cons.mpr ⟨List.mem_cons_self, hold⟩

namespace CoverMatrix

variable {L : Type} {m : CoverMatrix L}

/-- What an operation returns, and the matrix which it leaves. Nothing can be said of the removal
    of a column which does not exist. -/
def perform? (m : CoverMatrix L) : Operation → Option (Except Defect (List L) × CoverMatrix L)
  | .reduce => some (.ok [], m.reduce)
  | .sortColumns => some (.ok [], m.sortColumns)
  | .removeColumn c => (m.removeColumn? c).map fun removed => (.ok [removed.1], removed.2)
  | .extractMandatory => some m.extractMandatory

/-- The results of a series of operations, and the matrix which the last one leaves. -/
def run (m : CoverMatrix L) :
    List Operation → Option (List (Except Defect (List L)) × CoverMatrix L)
  | [] => some ([], m)
  | op :: ops => do
    let (result, next) ← m.perform? op
    let (results, last) ← next.run ops
    return (result :: results, last)

/-- A column to be removed has to exist. -/
def Accepts (m : CoverMatrix L) : Operation → Prop
  | .removeColumn c => c < m.labels.length
  | .reduce | .sortColumns | .extractMandatory => True

instance (m : CoverMatrix L) : (op : Operation) → Decidable (m.Accepts op)
  | .removeColumn c => inferInstanceAs (Decidable (c < m.labels.length))
  | .reduce | .sortColumns | .extractMandatory => inferInstanceAs (Decidable True)

/-! ## What a matrix keeps of an earlier one -/

/-- The labels of `m` are labels of `first`, and each row of `m` has the labels which some row of
    `first` has, without those which are gone. -/
structure DerivedFrom (first m : CoverMatrix L) : Prop where
  wellFormed : m.WellFormed
  labels : ∀ l ∈ m.labels, l ∈ first.labels
  rows : ∀ r ∈ m.rows, ∃ s ∈ first.rows,
    ∀ l, l ∈ m.rowLabels r ↔ l ∈ first.rowLabels s ∧ l ∈ m.labels

theorem DerivedFrom.trans {first next : CoverMatrix L} (h : first.DerivedFrom m)
    (hnext : m.DerivedFrom next) : first.DerivedFrom next := by
  refine ⟨hnext.wellFormed, fun l hl => h.labels l (hnext.labels l hl), fun r hr => ?_⟩
  obtain ⟨s, hs, hrs⟩ := hnext.rows r hr
  obtain ⟨t, ht, hst⟩ := h.rows s hs
  refine ⟨t, ht, fun l => ?_⟩
  calc l ∈ next.rowLabels r ↔ l ∈ m.rowLabels s ∧ l ∈ next.labels := hrs l
    _ ↔ (l ∈ first.rowLabels t ∧ l ∈ m.labels) ∧ l ∈ next.labels := and_congr_left' (hst l)
    _ ↔ l ∈ first.rowLabels t ∧ l ∈ next.labels := by
      rw [and_assoc, and_iff_right_of_imp (hnext.labels l)]

/-- The matrix with some of the rows. -/
theorem derivedFrom_of_rows_subset (h : m.WellFormed) {rows : List Row}
    (hrows : ∀ r ∈ rows, r ∈ m.rows) : m.DerivedFrom ⟨rows, m.labels⟩ := by
  refine ⟨⟨fun r hr => h.inBounds r (hrows r hr), h.nodup⟩, fun _ hl => hl, fun r hr => ?_⟩
  exact ⟨r, hrows r hr, fun l => (and_iff_left_of_imp mem_labels_of_mem_rowLabels).symm⟩

theorem DerivedFrom.refl (h : m.WellFormed) : m.DerivedFrom m :=
  derivedFrom_of_rows_subset h fun _ hr => hr

/-- The matrix with some of the columns, in any order. -/
theorem derivedFrom_reindex (h : m.WellFormed) {order : List Nat}
    (horder : ∀ c ∈ order, c < m.labels.length) (hnodup : order.Nodup) :
    m.DerivedFrom (m.reindex order) := by
  refine ⟨reindex_wellFormed horder h hnodup, fun l hl => lookup_subset hl, fun q hq => ?_⟩
  obtain ⟨r, hr, rfl⟩ := List.mem_map.mp hq
  refine ⟨r, hr, fun l => ?_⟩
  have hleft : l ∈ (m.reindex order).labels ↔ ∃ c ∈ order, m.labels[c]? = some l := mem_lookup
  rw [mem_rowLabels_reindex horder, mem_rowLabels, hleft]
  constructor
  · intro hl
    obtain ⟨c, hc, hcr, hcl⟩ := hl
    exact ⟨⟨c, hcr, hcl⟩, c, hc, hcl⟩
  · intro hl
    obtain ⟨⟨c, hcr, hcl⟩, d, hd, hdl⟩ := hl
    -- No label stands twice, so the column of the row is the one which is left.
    obtain rfl : c = d := position_unique h.nodup hcl hdl
    exact ⟨c, hd, hcr, hcl⟩

/-! ## One operation -/

/-- The columns which an extraction leaves are those which it has not selected. -/
theorem derivedFrom_extractMandatory (h : m.WellFormed) :
    m.DerivedFrom m.extractMandatory.2 := by
  have hused : m.DerivedFrom m.dropUnused :=
    derivedFrom_reindex h (fun _ => lt_of_mem_usedColumns) (List.nodup_range.filter _)
  have hkept := derivedFrom_of_rows_subset hused.wellFormed
    (MandatoryScan.kept_subset m.dropUnused.rows)
  let free := m.dropUnused.columns.filter fun c =>
    decide (c ∉ (MandatoryScan.ofRows m.dropUnused.rows).forced)
  have hfree : ∀ c ∈ free, c < m.dropUnused.labels.length :=
    fun c hc => mem_columns.mp (List.mem_filter.mp hc).1
  exact (hused.trans hkept).trans
    (derivedFrom_reindex hkept.wellFormed hfree (List.nodup_range.filter _))

/-- The label of a selected column is not left. -/
theorem forced_label (h : m.WellFormed) {c : Nat} {l : L}
    (hc : c ∈ (MandatoryScan.ofRows m.dropUnused.rows).forced)
    (hcl : m.dropUnused.labels[c]? = some l) : l ∉ m.extractMandatory.2.labels := by
  intro hleft
  obtain ⟨d, hd, hdl⟩ := mem_lookup.mp hleft
  obtain rfl : c = d := position_unique (dropUnused_wellFormed h).nodup hcl hdl
  exact of_decide_eq_true (List.mem_filter.mp hd).2 hc

/-- An extraction which succeeds returns the labels of columns which it takes away. -/
theorem extracted_labels (h : m.WellFormed) {labels : List L}
    (hok : m.extractMandatory.1 = .ok labels) :
    ∀ l ∈ labels, l ∈ m.labels ∧ l ∉ m.extractMandatory.2.labels := by
  obtain ⟨_, rfl⟩ := of_extractMandatory_eq_ok hok
  intro l hl
  obtain ⟨c, hc, hcl⟩ := mem_labelsAt.mp hl
  exact ⟨lookup_subset (lookup_subset hl), forced_label h hc hcl⟩

theorem removed_label (h : m.WellFormed) {c : Nat} {l : L} (hl : m.labels[c]? = some l) :
    l ∉ (m.removeColumn c).labels := by
  intro hleft
  obtain ⟨d, hd, hdl⟩ := mem_lookup.mp hleft
  obtain rfl : c = d := position_unique h.nodup hl hdl
  simpa using (List.mem_filter.mp hd).2

/-- An operation which the matrix accepts is carried out. It keeps the labels of the rows, and the
    labels which it returns are those of columns which it has taken away. -/
theorem perform?_spec (h : m.WellFormed) {op : Operation} (hop : m.Accepts op) :
    ∃ result next, m.perform? op = some (result, next) ∧ m.DerivedFrom next ∧
      ∀ labels, result = .ok labels → ∀ l ∈ labels, l ∈ m.labels ∧ l ∉ next.labels := by
  have hnothing : ∀ {p : L → Prop} labels,
      (Except.ok [] : Except Defect (List L)) = .ok labels → ∀ l ∈ labels, p l := by
    intro p labels hok l hl
    rw [← Except.ok.inj hok] at hl
    cases hl
  cases op with
  | reduce =>
    exact ⟨_, _, rfl, derivedFrom_of_rows_subset h fun _ => mem_of_mem_reduceDominated, hnothing⟩
  | sortColumns =>
    exact ⟨_, _, rfl, derivedFrom_reindex h (fun _ => mem_weightOrder.mp)
      (weightOrder_perm.nodup_iff.mpr List.nodup_range), hnothing⟩
  | removeColumn c =>
    obtain ⟨label, hlabel⟩ := Option.isSome_iff_exists.mp (isSome_getElem? hop)
    refine ⟨.ok [label], m.removeColumn c, by simp [perform?, removeColumn?, hlabel],
      derivedFrom_reindex h (fun _ hd => mem_columns.mp (List.mem_filter.mp hd).1)
        (List.nodup_range.filter _), ?_⟩
    intro labels hok l hl
    rw [← Except.ok.inj hok, List.mem_singleton] at hl
    rw [hl]
    exact ⟨List.mem_of_getElem? hlabel, removed_label h hlabel⟩
  | extractMandatory =>
    exact ⟨_, _, rfl, derivedFrom_extractMandatory h, fun _ => extracted_labels h⟩

/-! ## Series of operations -/

theorem accepts_of_perform?_eq_some {op : Operation}
    {step : Except Defect (List L) × CoverMatrix L} (h : m.perform? op = some step) :
    m.Accepts op := by
  cases op with
  | removeColumn c =>
    simp only [perform?, removeColumn?, Option.map_map, Option.map_eq_some_iff] at h
    obtain ⟨label, hlabel, _⟩ := h
    exact (List.getElem?_eq_some_iff.mp hlabel).1
  | _ => trivial

theorem perform?_derivedFrom (h : m.WellFormed) {op : Operation}
    {step : Except Defect (List L) × CoverMatrix L} (hop : m.perform? op = some step) :
    m.DerivedFrom step.2 := by
  obtain ⟨_, _, hperform, hderived, _⟩ := perform?_spec h (accepts_of_perform?_eq_some hop)
  rwa [Option.some.inj (hop.symm.trans hperform)]

theorem run_cons_eq_some {op : Operation} {ops : List Operation}
    {results : List (Except Defect (List L))} {last : CoverMatrix L}
    (h : m.run (op :: ops) = some (results, last)) :
    ∃ result next later, m.perform? op = some (result, next) ∧
      next.run ops = some (later, last) ∧ results = result :: later := by
  simp only [run, Option.bind_eq_bind, Option.bind_eq_some_iff] at h
  obtain ⟨⟨result, next⟩, hop, ⟨later, _⟩, hnext, heq⟩ := h
  obtain ⟨rfl, rfl⟩ := Prod.mk.inj (Option.some.inj heq)
  exact ⟨result, next, later, hop, hnext, rfl⟩

theorem run_derivedFrom (h : m.WellFormed) {ops : List Operation}
    {results : List (Except Defect (List L))} {last : CoverMatrix L}
    (hrun : m.run ops = some (results, last)) : m.DerivedFrom last := by
  induction ops generalizing m results with
  | nil =>
    obtain ⟨_, rfl⟩ := Prod.mk.inj (Option.some.inj hrun)
    exact .refl h
  | cons op ops ih =>
    obtain ⟨_, next, _, hop, hnext, _⟩ := run_cons_eq_some hrun
    have hderived : m.DerivedFrom next := perform?_derivedFrom h hop
    exact hderived.trans (ih hderived.wellFormed hnext)

end CoverMatrix

namespace InPlace

variable {L : Type} {m : CoverMatrix L}

/-- The operations in place, with every index checked. -/
def perform? (m : CoverMatrix L) : Operation → Option (Except Defect (List L) × CoverMatrix L)
  | .reduce => (reduceDominated m.rows).map fun rows => (.ok [], ⟨rows, m.labels⟩)
  | .sortColumns => (sortColumns m).map fun next => (.ok [], next)
  | .removeColumn c => (removeColumn m c).map fun removed => (.ok [removed.1], removed.2)
  | .extractMandatory => extractMandatory m

def run (m : CoverMatrix L) :
    List Operation → Option (List (Except Defect (List L)) × CoverMatrix L)
  | [] => some ([], m)
  | op :: ops => do
    let (result, next) ← perform? m op
    let (results, last) ← run next ops
    return (result :: results, last)

theorem perform?_refines (h : m.InBounds) (op : Operation) :
    InPlace.perform? m op = m.perform? op := by
  cases op with
  | reduce =>
    show (InPlace.reduceDominated m.rows).map _ = _
    rw [reduceDominated_refines]
    rfl
  | sortColumns =>
    show (InPlace.sortColumns m).map _ = _
    rw [sortColumns_refines]
    rfl
  | removeColumn c =>
    show (InPlace.removeColumn m c).map _ = _
    rw [removeColumn_refines h]
    rfl
  | extractMandatory => exact extractMandatory_refines h

theorem run_refines (h : m.WellFormed) (ops : List Operation) :
    InPlace.run m ops = m.run ops := by
  induction ops generalizing m with
  | nil => rfl
  | cons op ops ih =>
    rw [InPlace.run, CoverMatrix.run, perform?_refines h.inBounds]
    simp only [Option.bind_eq_bind]
    refine Option.bind_congr fun step hstep => ?_
    rw [ih (CoverMatrix.perform?_derivedFrom h hstep).wellFormed]

end InPlace

/-- After any series of operations on a matrix with distinct labels, and after one more operation:
    rows name existing columns, the labels are distinct and come from the first matrix, each row
    has the labels of some first row as far as they are left, and the labels which the operation
    returned were there before it and are gone after it. The operations in place agree. -/
theorem operations_keep_rows {L : Type} {first m : CoverMatrix L} (hbounds : first.InBounds)
    (hnodup : first.labels.Nodup) {ops : List Operation}
    {results : List (Except Defect (List L))} (hrun : first.run ops = some (results, m))
    {op : Operation} (hop : m.Accepts op) :
    ∃ result next, m.perform? op = some (result, next) ∧
      InPlace.run first ops = some (results, m) ∧ InPlace.perform? m op = some (result, next) ∧
      next.InBounds ∧ next.labels.Nodup ∧ (∀ l ∈ next.labels, l ∈ first.labels) ∧
      (∀ r ∈ next.rows, ∃ s ∈ first.rows,
        ∀ l, l ∈ next.rowLabels r ↔ l ∈ first.rowLabels s ∧ l ∈ next.labels) ∧
      ∀ labels, result = .ok labels → ∀ l ∈ labels, l ∈ m.labels ∧ l ∉ next.labels := by
  have hfirst : first.WellFormed := ⟨hbounds, hnodup⟩
  have hm := CoverMatrix.run_derivedFrom hfirst hrun
  obtain ⟨result, next, hperform, hnext, hreturned⟩ := CoverMatrix.perform?_spec hm.wellFormed hop
  have hderived := hm.trans hnext
  refine ⟨result, next, hperform, ?_, ?_, hderived.wellFormed.inBounds, hderived.wellFormed.nodup,
    hderived.labels, hderived.rows, hreturned⟩
  · rw [InPlace.run_refines hfirst, hrun]
  · rw [InPlace.perform?_refines hm.wellFormed.inBounds, hperform]

/-- A column is removed after an extraction which has selected `a` and then met a row without any
    column. -/
theorem operations_keep_rows_after_failure :
    let first : CoverMatrix Char :=
      ⟨[.ofList [1, 2], .ofList [0], .ofList [0], .ofList [0, 2]], ['a', 'b', 'c', 'd']⟩
    let m : CoverMatrix Char := ⟨[.ofList [0, 1], .ofList [], .ofList [1]], ['b', 'c']⟩
    first.InBounds ∧ first.labels.Nodup ∧
      first.run [.removeColumn 3, .extractMandatory] =
        some ([.ok ['d'], .error .rowWithoutColumn], m) ∧
      m.Accepts (.removeColumn 0) ∧
      ∃ result next, m.perform? (.removeColumn 0) = some (result, next) ∧
        InPlace.run first [.removeColumn 3, .extractMandatory] =
          some ([.ok ['d'], .error .rowWithoutColumn], m) ∧
        InPlace.perform? m (.removeColumn 0) = some (result, next) ∧
        next.InBounds ∧ next.labels.Nodup ∧ (∀ l ∈ next.labels, l ∈ first.labels) ∧
        (∀ r ∈ next.rows, ∃ s ∈ first.rows,
          ∀ l, l ∈ next.rowLabels r ↔ l ∈ first.rowLabels s ∧ l ∈ next.labels) ∧
        ∀ labels, result = .ok labels → ∀ l ∈ labels, l ∈ m.labels ∧ l ∉ next.labels := by
  intro first m
  have hbounds : first.InBounds := by decide
  have hnodup : first.labels.Nodup := by decide
  have hrun : first.run [.removeColumn 3, .extractMandatory] =
      some ([.ok ['d'], .error .rowWithoutColumn], m) := by decide +kernel
  have hop : m.Accepts (.removeColumn 0) := by decide
  exact ⟨hbounds, hnodup, hrun, hop, operations_keep_rows hbounds hnodup hrun hop⟩

end TwoLevel
