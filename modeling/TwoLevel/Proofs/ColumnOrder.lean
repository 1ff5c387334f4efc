/-
  The order of the columns by weight.

  The sort of a matrix puts the column `weightOrder[k]` in place `k`, in the labels and in every
  row. As `weightOrder` is a permutation of the columns (`exists_perm_weightOrder`), no column is
  lost and none comes twice. It is the stable sort by decreasing weight (`weightOrder_stable`), and
  a column keeps its weight when it moves (`columnWeight_reindex`), so that the weights of the
  sorted matrix decrease from left to right. Hence a second sort finds the columns in their places
  (`sortColumns_sortColumns`).
-/
import TwoLevel.Proofs.InPlace.Matrix

namespace TwoLevel

namespace CoverMatrix

variable {L : Type} {m : CoverMatrix L}

/-! ## The order -/

theorem length_weightOrder : m.weightOrder.length = m.labels.length :=
  weightOrder_perm.length_eq.trans List.length_range

theorem exists_getElem?_weightOrder {k : Nat} (hk : k < m.labels.length) :
    ∃ c < m.labels.length, m.weightOrder[k]? = some c := by
  have hlt : k < m.weightOrder.length := length_weightOrder.symm ▸ hk
  exact ⟨m.weightOrder[k], mem_weightOrder.mp (List.getElem_mem hlt), List.getElem?_eq_getElem hlt⟩

/-- The order as a permutation of the places. -/
theorem exists_perm_weightOrder (m : CoverMatrix L) :
    ∃ p : Equiv.Perm (Fin m.labels.length), ∀ k, m.weightOrder[k.val]? = some (p k).val := by
  have hplace : ∀ k : Fin m.labels.length, ∃ c : Fin m.labels.length,
      m.weightOrder[k.val]? = some c.val := by
    intro k
    obtain ⟨c, hc, hk⟩ := exists_getElem?_weightOrder k.isLt
    exact ⟨⟨c, hc⟩, hk⟩
  choose place hplace using hplace
  have hinjective : Function.Injective place := by
    intro j k hjk
    refine Fin.ext (position_unique (weightOrder_perm.nodup_iff.mpr List.nodup_range) (hplace j) ?_)
    rw [hjk]
    exact hplace k
  exact ⟨.ofBijective place (Finite.injective_iff_bijective.mp hinjective), hplace⟩

/-- Heavier columns come first, and columns of one weight as they stood before. -/
theorem weightOrder_stable {j k c d : Nat} (hjk : j < k) (hj : m.weightOrder[j]? = some c)
    (hk : m.weightOrder[k]? = some d) :
    m.columnWeight d ≤ m.columnWeight c ∧ (m.columnWeight c = m.columnWeight d → c < d) := by
  obtain ⟨hjlt, rfl⟩ := List.getElem?_eq_some_iff.mp hj
  obtain ⟨hklt, rfl⟩ := List.getElem?_eq_some_iff.mp hk
  have hsorted := sortDescending_stable m.columnWeight
    (List.pairwise_lt_range : m.columns.Pairwise (· < ·))
  exact List.pairwise_iff_getElem.mp hsorted j k hjlt hklt hjk

/-! ## The sorted matrix -/

/-- A column keeps its weight in its new place. -/
theorem columnWeight_reindex {order : List Nat} {k c : Nat} (hk : order[k]? = some c) :
    (m.reindex order).columnWeight k = m.columnWeight c := by
  unfold columnWeight reindex
  rw [List.countP_map]
  refine List.countP_congr fun r _ => ?_
  rw [Function.comp_apply, Row.contains_iff, Row.contains_iff, mem_positions_contains, hk]
  simp

theorem length_sortColumns_labels : m.sortColumns.labels.length = m.labels.length :=
  labels_sortColumns_perm.length_eq

theorem sortColumns_inBounds : m.sortColumns.InBounds :=
  reindex_inBounds fun _ hc => mem_weightOrder.mp hc

theorem columnWeight_sortColumns_le {j k : Nat} (hjk : j < k) (hk : k < m.labels.length) :
    m.sortColumns.columnWeight k ≤ m.sortColumns.columnWeight j := by
  obtain ⟨c, _, hc⟩ := exists_getElem?_weightOrder (hjk.trans hk)
  obtain ⟨d, _, hd⟩ := exists_getElem?_weightOrder hk
  calc m.sortColumns.columnWeight k = m.columnWeight d := columnWeight_reindex hd
    _ ≤ m.columnWeight c := (weightOrder_stable hjk hc hd).1
    _ = m.sortColumns.columnWeight j := (columnWeight_reindex hc).symm

theorem sortColumns_sortColumns : m.sortColumns.sortColumns = m.sortColumns := by
  have hsorted : m.sortColumns.columns.Pairwise fun j k =>
      m.sortColumns.columnWeight k ≤ m.sortColumns.columnWeight j :=
    List.pairwise_lt_range.imp_of_mem fun _ hk hjk =>
      columnWeight_sortColumns_le hjk (length_sortColumns_labels ▸ List.mem_range.mp hk)
  have horder : m.sortColumns.weightOrder = m.sortColumns.columns := sortDescending_eq_self hsorted
  show m.sortColumns.reindex m.sortColumns.weightOrder = _
  rw [horder, reindex_columns sortColumns_inBounds]

end CoverMatrix

/-- The sort of the columns by weight is a permutation `p` of their places: the label in place `k`
    is the one which stood in place `p k`, and row `i` has the column in place `k` if it had the
    one in place `p k`. The weights, which the columns keep, do not increase from left to right,
    and columns of one weight stay in order. A second sort changes nothing. The sort in place,
    which takes each label out of its slot, agrees. -/
theorem sortColumns_permutes {L : Type} (m : CoverMatrix L) :
    InPlace.sortColumns m = some m.sortColumns ∧
    m.sortColumns.labels.length = m.labels.length ∧ m.sortColumns.InBounds ∧
    ∃ p : Equiv.Perm (Fin m.labels.length),
      (∀ k, m.sortColumns.labels[k.val]? = m.labels[(p k).val]?) ∧
      List.Forall₂ (fun old new => ∀ k, k.val ∈ new ↔ (p k).val ∈ old) m.rows m.sortColumns.rows ∧
      (∀ k, m.sortColumns.columnWeight k.val = m.columnWeight (p k).val) ∧
      (∀ j k : Fin m.labels.length, j ≤ k →
        m.sortColumns.columnWeight k ≤ m.sortColumns.columnWeight j) ∧
      (∀ j k : Fin m.labels.length, j < k →
        m.sortColumns.columnWeight j = m.sortColumns.columnWeight k → p j < p k) ∧
      m.sortColumns.sortColumns = m.sortColumns := by
  obtain ⟨p, hp⟩ := m.exists_perm_weightOrder
  have hweight : ∀ k, m.sortColumns.columnWeight k.val = m.columnWeight (p k).val :=
    fun k => CoverMatrix.columnWeight_reindex (hp k)
  refine ⟨InPlace.sortColumns_refines m, CoverMatrix.length_sortColumns_labels,
    CoverMatrix.sortColumns_inBounds, p, fun k => ?_, ?_, hweight, fun j k hjk => ?_,
    fun j k hjk heq => ?_, CoverMatrix.sortColumns_sortColumns⟩
  · have hlabel := CoverMatrix.getElem?_reindex_labels
      (fun _ hc => CoverMatrix.mem_weightOrder.mp hc : ∀ c ∈ m.weightOrder, c < m.labels.length) k
    rw [hp] at hlabel
    exact hlabel
  · refine List.forall₂_map_right_iff.mpr (List.forall₂_same.mpr fun r _ k => ?_)
    show k.val ∈ Row.positions r.contains m.weightOrder ↔ _
    rw [CoverMatrix.mem_positions_contains, hp]
    simp
  · rcases hjk.eq_or_lt with rfl | hjk
    · exact Nat.le_refl _
    · exact CoverMatrix.columnWeight_sortColumns_le hjk k.isLt
  · rw [hweight, hweight] at heq
    exact (CoverMatrix.weightOrder_stable hjk (hp j) (hp k)).2 heq

/-- Column 0 moves behind the other three: the order is not its own inverse. -/
example :
    (⟨[.ofList [2, 3], .ofList [1, 2], .ofList [1, 3]], ['a', 'b', 'c', 'd']⟩ :
      CoverMatrix Char).sortColumns =
      ⟨[.ofList [1, 2], .ofList [0, 1], .ofList [0, 2]], ['b', 'c', 'd', 'a']⟩ := by decide

end TwoLevel
