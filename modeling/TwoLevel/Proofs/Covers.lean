/-
  Covers of a matrix, as sets of labels.

  A set of labels hits a row if the row has a column with one of them. Labels, and not column
  indices, are what the operations on a matrix keep: `reduce` drops rows without a change to the
  sets which hit all rows (`hits_reduce`), and so does every `reindex` which keeps the columns
  that some row has (`hits_reindex`).
-/
import TwoLevel.Proofs.Dominance
import TwoLevel.Proofs.Lookup

namespace TwoLevel.CoverMatrix

variable {L : Type}

/-- The labels of the columns which a row has. -/
def rowLabels (m : CoverMatrix L) (r : Row) : List L :=
  m.labelsAt r.columns

/-- Every row has a column with one of the labels. -/
def Hits (m : CoverMatrix L) (S : Finset L) : Prop :=
  ∀ r ∈ m.rows, ∃ l ∈ S, l ∈ m.rowLabels r

/-- A smallest set of labels of the matrix which hits every row. -/
structure IsMinimalCover (m : CoverMatrix L) (S : Finset L) : Prop where
  labels : ∀ l ∈ S, l ∈ m.labels
  hits : m.Hits S
  least : ∀ T : Finset L, (∀ l ∈ T, l ∈ m.labels) → m.Hits T → S.card ≤ T.card

/-- What every operation keeps: rows name existing columns, and no label stands twice. -/
structure WellFormed (m : CoverMatrix L) : Prop where
  inBounds : m.InBounds
  nodup : m.labels.Nodup

variable {m : CoverMatrix L}

/-! ## Labels of rows -/

theorem mem_labelsAt {cols : List Nat} {l : L} :
    l ∈ m.labelsAt cols ↔ ∃ c ∈ cols, m.labels[c]? = some l :=
  mem_lookup

theorem mem_rowLabels {r : Row} {l : L} :
    l ∈ m.rowLabels r ↔ ∃ c ∈ r, m.labels[c]? = some l :=
  mem_lookup

theorem mem_labels_of_mem_rowLabels {r : Row} {l : L} (h : l ∈ m.rowLabels r) : l ∈ m.labels :=
  lookup_subset h

theorem mem_columns {c : Nat} : c ∈ m.columns ↔ c < m.labels.length :=
  List.mem_range

/-- The labels of all columns, in their order, are the labels of the matrix. -/
theorem labelsAt_columns : m.labelsAt m.columns = m.labels := by
  refine List.ext_getElem? fun k => ?_
  rw [labelsAt, getElem?_filterMap_of_isSome fun c hc => isSome_getElem? (mem_columns.mp hc)]
  exact getElem?_range_bind m.labels k

theorem mem_columns_of_mem_row (h : m.InBounds) {r : Row} (hr : r ∈ m.rows) {c : Nat}
    (hc : c ∈ r) : c ∈ m.columns :=
  mem_columns.mpr (h r hr c hc)

theorem exists_label (h : m.InBounds) {r : Row} (hr : r ∈ m.rows) {c : Nat} (hc : c ∈ r) :
    ∃ l, m.labels[c]? = some l :=
  ⟨_, List.getElem?_eq_getElem (h r hr c hc)⟩

theorem mem_rowLabels_of_subset {r s : Row} (h : r.subset s = true) {l : L}
    (hl : l ∈ m.rowLabels r) : l ∈ m.rowLabels s := by
  obtain ⟨c, hc, hcl⟩ := mem_rowLabels.mp hl
  exact mem_rowLabels.mpr ⟨c, Row.subset_iff.mp h c hc, hcl⟩

/-! ## Sets which hit the rows -/

theorem Hits.mono {S T : Finset L} (h : m.Hits S) (hST : S ⊆ T) : m.Hits T := by
  intro r hr
  obtain ⟨l, hl, hlr⟩ := h r hr
  exact ⟨l, hST hl, hlr⟩

/-- Only the labels of the matrix count. -/
theorem Hits.filter_labels [DecidableEq L] {S : Finset L} (h : m.Hits S) :
    m.Hits (S.filter (· ∈ m.labels)) := by
  intro r hr
  obtain ⟨l, hl, hlr⟩ := h r hr
  exact ⟨l, Finset.mem_filter.mpr ⟨hl, mem_labels_of_mem_rowLabels hlr⟩, hlr⟩

/-- The columns with the labels of a set are a cover of the matrix if the set hits its rows. -/
theorem isCoveredBy_iff_hits [DecidableEq L] (h : m.WellFormed) {cols : List Nat} :
    m.isCoveredBy cols = true ↔ m.Hits (m.labelsAt cols).toFinset := by
  rw [isCoveredBy_iff]
  constructor
  · intro hc r hr
    obtain ⟨c, hmem, hcr⟩ := hc r hr
    obtain ⟨l, hl⟩ := exists_label h.inBounds hr hcr
    have hlS : l ∈ (m.labelsAt cols).toFinset :=
      List.mem_toFinset.mpr (mem_labelsAt.mpr ⟨c, hmem, hl⟩)
    exact ⟨l, hlS, mem_rowLabels.mpr ⟨c, hcr, hl⟩⟩
  · intro hS r hr
    obtain ⟨l, hlS, hlr⟩ := hS r hr
    obtain ⟨c, hmem, hc⟩ := mem_labelsAt.mp (List.mem_toFinset.mp hlS)
    obtain ⟨d, hdr, hd⟩ := mem_rowLabels.mp hlr
    exact ⟨c, hmem, position_unique h.nodup hd hc ▸ hdr⟩

/-! ## Dominated rows -/

theorem reduce_wellFormed (h : m.WellFormed) : m.reduce.WellFormed :=
  ⟨reduce_inBounds h.inBounds, h.nodup⟩

theorem hits_reduce {S : Finset L} : m.reduce.Hits S ↔ m.Hits S := by
  constructor
  · intro h r hr
    obtain ⟨s, hs, hsr⟩ := exists_mem_reduceDominated_subset hr
    obtain ⟨l, hl, hls⟩ := h s hs
    exact ⟨l, hl, mem_rowLabels_of_subset hsr hls⟩
  · intro h r hr
    exact h r (mem_of_mem_reduceDominated hr)

/-! ## Columns in a new order -/

section Reindex

variable {order : List Nat} (horder : ∀ c ∈ order, c < m.labels.length)

include horder

theorem getElem?_reindex_labels (k : Nat) :
    (m.reindex order).labels[k]? = order[k]?.bind (m.labels[·]?) :=
  getElem?_filterMap_of_isSome (fun c hc => isSome_getElem? (horder c hc)) k

theorem length_reindex_labels : (m.reindex order).labels.length = order.length :=
  length_lookup horder

theorem mem_rowLabels_reindex {r : Row} {l : L} :
    l ∈ (m.reindex order).rowLabels (Row.positions r.contains order) ↔
      ∃ c ∈ order, c ∈ r ∧ m.labels[c]? = some l := by
  rw [mem_rowLabels]
  constructor
  · intro h
    obtain ⟨k, hk, hl⟩ := h
    obtain ⟨c, hkc, hcr⟩ := mem_positions_contains.mp hk
    rw [getElem?_reindex_labels horder, hkc] at hl
    exact ⟨c, List.mem_of_getElem? hkc, hcr, hl⟩
  · intro h
    obtain ⟨c, hc, hcr, hl⟩ := h
    obtain ⟨k, hk⟩ := List.mem_iff_getElem?.mp hc
    refine ⟨k, mem_positions_contains.mpr ⟨c, hk, hcr⟩, ?_⟩
    rw [getElem?_reindex_labels horder, hk]
    exact hl

theorem reindex_inBounds : (m.reindex order).InBounds := by
  intro r hr k hk
  obtain ⟨s, _, rfl⟩ := List.mem_map.mp hr
  obtain ⟨c, hkc, _⟩ := mem_positions_contains.mp hk
  rw [length_reindex_labels horder]
  exact (List.getElem?_eq_some_iff.mp hkc).1

theorem reindex_wellFormed (h : m.WellFormed) (hnodup : order.Nodup) :
    (m.reindex order).WellFormed :=
  ⟨reindex_inBounds horder, nodup_lookup h.nodup hnodup⟩

/-- A new order which keeps every column of a row keeps the labels of the row. -/
theorem mem_rowLabels_reindex_of_keeps {r : Row} (hkeeps : ∀ c ∈ r, c ∈ order) {l : L} :
    l ∈ (m.reindex order).rowLabels (Row.positions r.contains order) ↔ l ∈ m.rowLabels r := by
  rw [mem_rowLabels_reindex horder, mem_rowLabels]
  exact ⟨fun ⟨c, _, hcr, hl⟩ => ⟨c, hcr, hl⟩, fun ⟨c, hcr, hl⟩ => ⟨c, hkeeps c hcr, hcr, hl⟩⟩

theorem hits_reindex (hkeeps : ∀ r ∈ m.rows, ∀ c ∈ r, c ∈ order) {S : Finset L} :
    (m.reindex order).Hits S ↔ m.Hits S := by
  simp only [Hits, reindex, List.forall_mem_map]
  refine forall₂_congr fun r hr => exists_congr fun l => and_congr_right fun _ => ?_
  exact mem_rowLabels_reindex_of_keeps horder (hkeeps r hr)

end Reindex

/-! ## Columns by weight, and unused columns -/

/-- The columns by decreasing weight. -/
def weightOrder (m : CoverMatrix L) : List Nat :=
  sortDescending m.columnWeight m.columns

theorem weightOrder_perm : m.weightOrder.Perm m.columns :=
  sortDescending_perm m.columnWeight m.columns

theorem mem_weightOrder {c : Nat} : c ∈ m.weightOrder ↔ c < m.labels.length :=
  weightOrder_perm.mem_iff.trans mem_columns

theorem sortColumns_wellFormed (h : m.WellFormed) : m.sortColumns.WellFormed :=
  reindex_wellFormed (fun _ hc => mem_weightOrder.mp hc) h
    (weightOrder_perm.nodup_iff.mpr List.nodup_range)

theorem hits_sortColumns (h : m.InBounds) {S : Finset L} : m.sortColumns.Hits S ↔ m.Hits S :=
  hits_reindex (fun _ hc => mem_weightOrder.mp hc) fun r hr c hc =>
    mem_weightOrder.mpr (h r hr c hc)

theorem labels_sortColumns_perm : m.sortColumns.labels.Perm m.labels := by
  have hperm : (m.labelsAt m.weightOrder).Perm (m.labelsAt m.columns) :=
    weightOrder_perm.filterMap (m.labels[·]?)
  rwa [labelsAt_columns] at hperm

/-- The columns which some row has. -/
def usedColumns (m : CoverMatrix L) : List Nat :=
  m.columns.filter fun c => m.rows.any (·.contains c)

theorem mem_usedColumns {c : Nat} :
    c ∈ m.usedColumns ↔ c < m.labels.length ∧ ∃ r ∈ m.rows, c ∈ r := by
  simp [usedColumns, mem_columns]

theorem lt_of_mem_usedColumns {c : Nat} (hc : c ∈ m.usedColumns) : c < m.labels.length :=
  (mem_usedColumns.mp hc).1

theorem dropUnused_wellFormed (h : m.WellFormed) : m.dropUnused.WellFormed :=
  reindex_wellFormed (fun _ => lt_of_mem_usedColumns) h (List.nodup_range.filter _)

theorem mem_usedColumns_of_mem_row (h : m.InBounds) {r : Row} (hr : r ∈ m.rows) {c : Nat}
    (hc : c ∈ r) : c ∈ m.usedColumns :=
  mem_usedColumns.mpr ⟨h r hr c hc, r, hr, hc⟩

theorem hits_dropUnused (h : m.InBounds) {S : Finset L} : m.dropUnused.Hits S ↔ m.Hits S :=
  hits_reindex (fun _ => lt_of_mem_usedColumns) fun _ hr _ hc => mem_usedColumns_of_mem_row h hr hc

theorem mem_labels_of_mem_dropUnused {l : L} (h : l ∈ m.dropUnused.labels) : l ∈ m.labels :=
  lookup_subset h

end TwoLevel.CoverMatrix
