/-
  Rows in order, and what is left of them after the removal of dominated rows.

  `Row.order` is a total order which tells any two rows apart, and by which a row comes after
  every row that it includes. Hence the scan `keepMinimal` of the sorted rows keeps:

  * below every row of the list a row which it includes (`exists_mem_reduceDominated_subset`);
  * no two rows of which one includes the other (`reduceDominated_antichain`).
-/
import TwoLevel.Cover.Matrix
import Mathlib

namespace TwoLevel

namespace Row

/-! ## The order of the rows -/

theorem compareColumns_eq_compareLex (as bs : List Nat) :
    compareColumns as bs = List.compareLex (fun a b : Nat => compare b a) as bs := by
  induction as generalizing bs with
  | nil => cases bs <;> rfl
  | cons a as ih =>
    cases bs with
    | nil => rfl
    | cons b bs =>
      rw [List.compareLex_cons_cons, ← ih, compareColumns]
      rcases Nat.lt_trichotomy a b with h | h | h
      · rw [if_neg (Nat.ne_of_lt h), if_pos h, Nat.compare_eq_gt.mpr h]
        rfl
      · rw [if_pos h, Nat.compare_eq_eq.mpr h.symm]
        rfl
      · rw [if_neg (Nat.ne_of_gt h), if_neg (Nat.lt_asymm h), Nat.compare_eq_lt.mpr h]
        rfl

instance : Std.TransCmp lexicographic where
  eq_swap {r s} := by
    simp only [lexicographic, compareColumns_eq_compareLex]
    exact @Std.OrientedCmp.eq_swap _ (List.compareLex fun a b : Nat => compare b a) _ _ _
  isLE_trans {r s t} hrs hst := by
    simp only [lexicographic, compareColumns_eq_compareLex] at hrs hst ⊢
    exact @Std.TransCmp.isLE_trans _ (List.compareLex fun a b : Nat => compare b a) _ _ _ _
      hrs hst

instance : Std.TransCmp order :=
  inferInstanceAs (Std.TransCmp (compareLex (compareOn size) lexicographic))

theorem order_total (r s : Row) : (r.order s).isLE = true ∨ (s.order r).isLE = true := by
  rw [@Std.OrientedCmp.eq_swap _ order _ s r]
  cases r.order s <;> simp

theorem size_le_of_order_isLE {r s : Row} (h : (r.order s).isLE = true) : r.size ≤ s.size := by
  rw [order, Ordering.isLE_then_iff_and] at h
  exact Nat.isLE_compare.mp h.1

/-! ## Inclusion -/

theorem subset_refl (r : Row) : r.subset r = true :=
  subset_iff.mpr fun _ h => h

theorem subperm_columns {r s : Row} (h : r.subset s = true) :
    r.columns.Subperm s.columns :=
  r.nodup_columns.subperm fun c hc => subset_iff.mp h c hc

theorem eq_of_subset_of_size_le {r s : Row} (h : r.subset s = true) (hsize : s.size ≤ r.size) :
    r = s :=
  ext fun _ => ((subperm_columns h).perm_of_length_le hsize).mem_iff

end Row

/-! ## The scan of the sorted rows -/

/-- A row is kept itself, or it includes a row kept before. -/
theorem exists_mem_keepMinimal_subset {kept rows : List Row} {r : Row} (h : r ∈ rows) :
    (∃ s ∈ kept, s.subset r = true) ∨ ∃ s ∈ keepMinimal kept rows, s.subset r = true := by
  induction rows generalizing kept with
  | nil => cases h
  | cons q rows ih =>
    simp only [keepMinimal]
    split
    · next hq =>
      rcases List.mem_cons.mp h with rfl | h
      · exact Or.inl (List.any_eq_true.mp hq)
      · exact ih h
    · rcases List.mem_cons.mp h with rfl | h
      · exact Or.inr ⟨r, List.mem_cons_self, r.subset_refl⟩
      · rcases @ih (q :: kept) h with ⟨s, hs, hsub⟩ | ⟨s, hs, hsub⟩
        · rcases List.mem_cons.mp hs with rfl | hs
          · exact Or.inr ⟨s, List.mem_cons_self, hsub⟩
          · exact Or.inl ⟨s, hs, hsub⟩
        · exact Or.inr ⟨s, List.mem_cons_of_mem q hs, hsub⟩

theorem not_subset_of_mem_keepMinimal {kept rows : List Row} {r s : Row}
    (hr : r ∈ keepMinimal kept rows) (hs : s ∈ kept) : ¬ s.subset r = true := by
  induction rows generalizing kept with
  | nil => cases hr
  | cons q rows ih =>
    simp only [keepMinimal] at hr
    split at hr
    · exact ih hr hs
    · next hq =>
      rcases List.mem_cons.mp hr with rfl | hr
      · exact fun h => hq (List.any_eq_true.mpr ⟨s, hs, h⟩)
      · exact ih hr (List.mem_cons_of_mem q hs)

theorem keepMinimal_pairwise (kept rows : List Row) :
    (keepMinimal kept rows).Pairwise fun r s => ¬ r.subset s = true := by
  induction rows generalizing kept with
  | nil => exact List.Pairwise.nil
  | cons q rows ih =>
    simp only [keepMinimal]
    split
    · exact ih kept
    · exact List.pairwise_cons.mpr
        ⟨fun r hr => not_subset_of_mem_keepMinimal hr List.mem_cons_self, ih (q :: kept)⟩

/-! ## The rows that are left -/

/-- Neither of two rows includes the other. -/
def Incomparable (r s : Row) : Prop :=
  ¬ r.subset s = true ∧ ¬ s.subset r = true

instance : Std.Symm Incomparable where
  symm _ _ h := ⟨h.2, h.1⟩

theorem exists_mem_reduceDominated_subset {rows : List Row} {r : Row} (h : r ∈ rows) :
    ∃ s ∈ reduceDominated rows, s.subset r = true := by
  rcases @exists_mem_keepMinimal_subset [] _ _ (mem_stableSort.mpr h) with ⟨s, hs, _⟩ | h
  · cases hs
  · exact h

theorem reduceDominated_sorted (rows : List Row) :
    (reduceDominated rows).Pairwise fun r s => (r.order s).isLE = true :=
  (stableSort_pairwise Row.order_total
    (fun _ _ _ => @Std.TransCmp.isLE_trans _ Row.order _ _ _ _) rows).sublist
    (keepMinimal_sublist [] _)

theorem reduceDominated_antichain (rows : List Row) :
    (reduceDominated rows).Pairwise Incomparable := by
  have hkept : (reduceDominated rows).Pairwise fun r s => ¬ r.subset s = true :=
    keepMinimal_pairwise [] _
  refine (hkept.and (reduceDominated_sorted rows)).imp ?_
  intro r s h
  obtain ⟨hrs, hle⟩ := h
  refine ⟨hrs, fun hsr => hrs ?_⟩
  -- the later row is not smaller, so that it can only be included if it is the same row
  have heq : s = r := Row.eq_of_subset_of_size_le hsr (Row.size_le_of_order_isLE hle)
  rw [heq]
  exact r.subset_refl

end TwoLevel
