/-
  Changes of the columns in a row. A new order of a new order is again a new order of the first
  matrix (`reindex_reindex`), so that any series of them is known by the list of the columns which
  are left. The removal of a column takes its place out of this list (`removeColumn_reindex`).
-/
import TwoLevel.Proofs.Covers

namespace TwoLevel

/-! ## Elements at positions -/

/-- The elements at the positions where `p` holds. -/
theorem lookup_positions {α : Type} (p : α → Bool) (l : List α) :
    (Row.positions p l).columns.filterMap (l[·]?) = l.filter p := by
  have hlookup : (l.zipIdx.filter fun x => p x.1).filterMap (fun x => l[x.2]?) =
      (l.zipIdx.filter fun x => p x.1).map (·.1) := by
    rw [← List.filterMap_eq_map]
    refine List.filterMap_congr fun x hx => ?_
    exact List.mem_zipIdx_iff_getElem?.mp (List.mem_filter.mp hx).1
  rw [Row.positions, List.filterMap_map]
  refine hlookup.trans ?_
  have hmap : (l.zipIdx.filter fun x => p x.1).map (·.1) =
      (l.zipIdx.map (·.1)).filter p := by
    rw [List.filter_map]
    rfl
  rw [hmap, List.zipIdx_map_fst]

theorem range_filter_ne (n j : Nat) :
    (List.range n).filter (· != j) = (List.range n).eraseIdx j := by
  by_cases hj : j < n
  · have hlt : j < (List.range n).length := by rwa [List.length_range]
    rw [← List.nodup_range.erase_getElem j hlt, List.nodup_range.erase_eq_filter,
      List.getElem_range]
  · have hall : ∀ c ∈ List.range n, (c != j) = true := by
      intro c hc
      have hlt : c < n := List.mem_range.mp hc
      exact bne_iff_ne.mpr (by omega)
    rw [List.eraseIdx_of_length_le (by rw [List.length_range]; omega),
      List.filter_eq_self.mpr hall]

/-- Without the column `j`, the columns after it move up. -/
theorem getElem?_range_filter_ne {n j k : Nat} :
    ((List.range n).filter (· != j))[k]? =
      if k < j then (List.range n)[k]? else (List.range n)[k + 1]? := by
  rw [range_filter_ne, List.getElem?_eraseIdx]

/-- Without one of the positions, the elements of a list are those without the one there. -/
theorem lookup_range_filter_ne {α : Type} (l : List α) (j : Nat) :
    ((List.range l.length).filter (· != j)).filterMap (l[·]?) = l.eraseIdx j := by
  have hlt : ∀ c ∈ (List.range l.length).filter (· != j), c < l.length :=
    fun c hc => List.mem_range.mp (List.mem_filter.mp hc).1
  refine List.ext_getElem? fun k => ?_
  rw [getElem?_filterMap_of_isSome fun c hc => isSome_getElem? (hlt c hc),
    getElem?_range_filter_ne, List.getElem?_eraseIdx]
  split <;> exact getElem?_range_bind l _

namespace CoverMatrix

variable {L : Type} {m : CoverMatrix L}

/-! ## One order after the other -/

theorem positions_positions (r : Row) {order next : List Nat}
    (hnext : ∀ k ∈ next, k < order.length) :
    Row.positions (Row.positions r.contains order).contains next =
      Row.positions r.contains (next.filterMap (order[·]?)) := by
  refine Row.ext fun k => ?_
  simp only [mem_positions_contains,
    getElem?_filterMap_of_isSome fun j hj => isSome_getElem? (hnext j hj),
    Option.bind_eq_some_iff]
  constructor
  · intro h
    obtain ⟨j, hk, c, hj, hc⟩ := h
    exact ⟨c, ⟨j, hk, hj⟩, hc⟩
  · intro h
    obtain ⟨c, ⟨j, hk, hj⟩, hc⟩ := h
    exact ⟨j, hk, c, hj, hc⟩

theorem reindex_reindex {order next : List Nat} (horder : ∀ c ∈ order, c < m.labels.length)
    (hnext : ∀ k ∈ next, k < order.length) :
    (m.reindex order).reindex next = m.reindex (next.filterMap (order[·]?)) := by
  have hrows : ((m.reindex order).reindex next).rows =
      (m.reindex (next.filterMap (order[·]?))).rows := by
    simp only [reindex, List.map_map]
    exact List.map_congr_left fun r _ => positions_positions r hnext
  have hlabels : ((m.reindex order).reindex next).labels =
      (m.reindex (next.filterMap (order[·]?))).labels := by
    show next.filterMap ((m.reindex order).labels[·]?) = _
    rw [List.filterMap_congr fun k _ => getElem?_reindex_labels horder k]
    exact (List.filterMap_filterMap (f := (order[·]?)) (g := (m.labels[·]?))).symm
  exact congrArg₂ CoverMatrix.mk hrows hlabels

theorem removeColumn_reindex {order : List Nat} (horder : ∀ c ∈ order, c < m.labels.length)
    (j : Nat) : (m.reindex order).removeColumn j = m.reindex (order.eraseIdx j) := by
  have hcolumns : (m.reindex order).columns = List.range order.length := by
    rw [columns, length_reindex_labels horder]
  unfold removeColumn
  rw [hcolumns, reindex_reindex horder, lookup_range_filter_ne]
  exact fun k hk => List.mem_range.mp (List.mem_filter.mp hk).1

/-- In their old order the columns stay as they are. -/
theorem reindex_columns (h : m.InBounds) : m.reindex m.columns = m := by
  have hrows : (m.rows.map fun r => Row.positions r.contains m.columns) = m.rows := by
    refine (List.map_congr_left fun r hr => ?_).trans (List.map_id _)
    refine Row.ext fun c => ?_
    rw [mem_positions_contains]
    constructor
    · intro h
      obtain ⟨d, hd, hdr⟩ := h
      rw [columns, List.getElem?_range (by simpa using (List.getElem?_eq_some_iff.mp hd).1),
        Option.some_inj] at hd
      exact hd ▸ hdr
    · intro hc
      exact ⟨c, List.getElem?_range (h r hr c hc), hc⟩
  exact congrArg₂ CoverMatrix.mk hrows labelsAt_columns

end CoverMatrix

end TwoLevel
