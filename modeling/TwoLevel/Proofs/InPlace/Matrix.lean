/-
  The operations on a covering matrix, in place and with every index checked.

  A column is removed from the labels and from every row, and the columns after it move up. The
  unused columns, and then the mandatory ones, are removed one by one while the loop goes through
  the indices of the matrix. Each operation agrees with the one which lists the columns to keep, so
  that no index is out of range: at each moment the matrix is a `reindex` of the first one, and
  the columns still to visit are those which they were (`dropUnusedBelow_reindex`) or the rows are
  (`extractBelow_refines`).
-/
import TwoLevel.Proofs.CoverSearch
import TwoLevel.Proofs.InPlace.Loops
import TwoLevel.Proofs.Reindexing

namespace TwoLevel.InPlace

open CoverMatrix

variable {L : Type}

/-! ## One column -/

/-- The row without column `c`; the columns after it move up. -/
def withoutColumn (c : Nat) (r : Row) : Row :=
  .ofList ((r.columns.filter (· != c)).map fun d => if c < d then d - 1 else d)

/-- Drops a column which has to exist, and tells its label. -/
def removeColumn (m : CoverMatrix L) (c : Nat) : Option (L × CoverMatrix L) := do
  let label ← m.labels[c]?
  let labels ← removeAt m.labels c
  return (label, ⟨m.rows.map (withoutColumn c), labels⟩)

theorem withoutColumn_eq_positions {r : Row} {n : Nat} (hr : ∀ d ∈ r, d < n) (c : Nat) :
    withoutColumn c r = .positions r.contains ((List.range n).filter (· != c)) := by
  refine Row.ext fun k => ?_
  unfold withoutColumn
  rw [Row.mem_ofList, mem_positions_contains, getElem?_range_filter_ne]
  simp only [List.mem_map, List.mem_filter, bne_iff_ne]
  constructor
  · intro h
    obtain ⟨d, ⟨hd, hne⟩, rfl⟩ := h
    have hlt : d < n := hr d hd
    refine ⟨d, ?_, hd⟩
    split
    · next hcd =>
      rw [if_neg (by omega), Nat.sub_add_cancel (by omega)]
      exact List.getElem?_range hlt
    · next hcd =>
      rw [if_pos (by omega)]
      exact List.getElem?_range hlt
  · intro h
    obtain ⟨d, hk, hd⟩ := h
    split at hk
    · next hkc =>
      obtain ⟨_, hkd⟩ := List.getElem?_eq_some_iff.mp hk
      rw [List.getElem_range] at hkd
      exact ⟨d, ⟨hd, by omega⟩, by rw [if_neg (by omega), hkd]⟩
    · next hkc =>
      obtain ⟨_, hkd⟩ := List.getElem?_eq_some_iff.mp hk
      rw [List.getElem_range] at hkd
      exact ⟨d, ⟨hd, by omega⟩, by rw [if_pos (by omega)]; omega⟩

theorem removeColumn_refines {m : CoverMatrix L} (h : m.InBounds) (c : Nat) :
    InPlace.removeColumn m c = m.removeColumn? c := by
  by_cases hc : c < m.labels.length
  · have hrows : m.rows.map (withoutColumn c) = (m.removeColumn c).rows :=
      List.map_congr_left fun r hr => withoutColumn_eq_positions (h r hr) c
    have hlabels : m.labels.eraseIdx c = (m.removeColumn c).labels :=
      (lookup_range_filter_ne m.labels c).symm
    rw [InPlace.removeColumn, removeColumn?, List.getElem?_eq_getElem hc, removeAt, if_pos hc,
      hrows, hlabels]
    rfl
  · unfold InPlace.removeColumn removeColumn?
    rw [List.getElem?_eq_none (Nat.le_of_not_lt hc)]
    rfl

/-- A column which does not exist cannot be removed. -/
example : InPlace.removeColumn (⟨[], ['a']⟩ : CoverMatrix Char) 1 = none := rfl

/-- The removal of a column from a matrix which lists some columns of `m` in their order. -/
theorem removeColumn_reindex_refines {m : CoverMatrix L} {order : List Nat}
    (horder : ∀ c ∈ order, c < m.labels.length) {j c : Nat} (hj : order[j]? = some c) {label : L}
    (hlabel : m.labels[c]? = some label) :
    InPlace.removeColumn (m.reindex order) j = some (label, m.reindex (order.eraseIdx j)) := by
  rw [removeColumn_refines (reindex_inBounds horder), removeColumn?,
    removeColumn_reindex horder, getElem?_reindex_labels horder, hj, Option.bind_some, hlabel]
  rfl

/-! ## Columns by weight -/

/-- Takes the labels out of their slots in the given order. An empty slot gives no label. -/
def takeLabels : List Nat → List (Option L) → Option (List L)
  | [], _ => some []
  | c :: order, slots => do
    let slot ← slots[c]?
    let labels ← takeLabels order (slots.set c none)
    return slot.toList ++ labels

/-- Orders the columns by decreasing weight, each weight being read by the index of its column. -/
def sortColumns (m : CoverMatrix L) : Option (CoverMatrix L) := do
  let weights := m.columns.map m.columnWeight
  let weighted ← m.columns.mapM fun c => weights[c]?.map (c, ·)
  let order := (stableSort (fun a b => decide (b.2 ≤ a.2)) weighted).map (·.1)
  let labels ← takeLabels order (m.labels.map some)
  return ⟨m.rows.map fun r => .positions r.contains order, labels⟩

theorem takeLabels_eq {order : List Nat} {slots : List (Option L)} {labels : List L}
    (hnodup : order.Nodup) (hslots : ∀ c ∈ order, slots[c]? = some labels[c]?) :
    takeLabels order slots = some (order.filterMap (labels[·]?)) := by
  induction order generalizing slots with
  | nil => rfl
  | cons c order ih =>
    obtain ⟨hc, horder⟩ := List.nodup_cons.mp hnodup
    have hrest : ∀ d ∈ order, (slots.set c none)[d]? = some labels[d]? := by
      intro d hd
      have hne : c ≠ d := fun heq => hc (heq ▸ hd)
      rw [List.getElem?_set_ne hne]
      exact hslots d (List.mem_cons_of_mem c hd)
    rw [takeLabels, hslots c List.mem_cons_self, ih horder hrest, List.filterMap_cons]
    cases labels[c]? <;> rfl

theorem sortColumns_refines (m : CoverMatrix L) :
    InPlace.sortColumns m = some m.sortColumns := by
  have hweighted : (m.columns.mapM fun c =>
      (m.columns.map m.columnWeight)[c]?.map (c, ·)) =
      some (m.columns.map fun c => (c, m.columnWeight c)) := by
    refine mapM_eq_pure_map fun c hc => ?_
    rw [List.getElem?_map, columns, List.getElem?_range (mem_columns.mp hc)]
    rfl
  have hslots : ∀ c ∈ m.weightOrder, (m.labels.map some)[c]? = some m.labels[c]? := by
    intro c hc
    rw [List.getElem?_map, List.getElem?_eq_getElem (mem_weightOrder.mp hc)]
    rfl
  have hlabels := takeLabels_eq (weightOrder_perm.nodup_iff.mpr List.nodup_range) hslots
  unfold InPlace.sortColumns
  simp only [hweighted, Option.bind_eq_bind, Option.bind_some]
  show (takeLabels m.weightOrder _).bind _ = _
  rw [hlabels]
  rfl

end TwoLevel.InPlace
