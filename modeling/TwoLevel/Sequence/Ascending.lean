/-
  Finite sets as strictly ascending lists. `ascending l` holds every element of `l` once, in
  increasing order.
-/

namespace TwoLevel

variable {α : Type} [LT α] [DecidableLT α] [DecidableEq α]

/-- Inserts `a` into a strictly ascending list, unless it is there already. -/
def insertAscending (a : α) : List α → List α
  | [] => [a]
  | b :: l =>
    if a < b then a :: b :: l
    else if a = b then b :: l
    else b :: insertAscending a l

/-- The distinct elements of a list in increasing order. -/
def ascending (l : List α) : List α :=
  l.foldr insertAscending []

theorem mem_insertAscending {a x : α} {l : List α} :
    x ∈ insertAscending a l ↔ x = a ∨ x ∈ l := by
  induction l with
  | nil => simp [insertAscending]
  | cons b l ih =>
    simp only [insertAscending]
    split
    · simp
    · split
      · next h => simp [h]
      · simp [ih, or_left_comm]

theorem mem_ascending {x : α} {l : List α} : x ∈ ascending l ↔ x ∈ l := by
  induction l with
  | nil => simp [ascending]
  | cons a l ih =>
    rw [List.mem_cons, ← ih]
    exact mem_insertAscending

theorem insertAscending_pairwise [LE α] [Std.IsLinearOrder α] [Std.LawfulOrderLT α] {a : α}
    {l : List α} (h : l.Pairwise (· < ·)) : (insertAscending a l).Pairwise (· < ·) := by
  induction l with
  | nil => simp [insertAscending]
  | cons b l ih =>
    have hb := List.pairwise_cons.mp h
    simp only [insertAscending]
    split
    · next hab =>
      refine List.pairwise_cons.mpr ⟨fun x hx => ?_, h⟩
      rcases List.mem_cons.mp hx with rfl | hx
      · exact hab
      · exact Std.lt_trans hab (hb.1 x hx)
    · split
      · exact h
      · next hab hne =>
        refine List.pairwise_cons.mpr ⟨fun x hx => ?_, ih hb.2⟩
        rcases mem_insertAscending.mp hx with rfl | hx
        · exact Std.lt_of_le_of_ne (Std.not_lt.mp hab) (Ne.symm hne)
        · exact hb.1 x hx

theorem ascending_pairwise [LE α] [Std.IsLinearOrder α] [Std.LawfulOrderLT α] (l : List α) :
    (ascending l).Pairwise (· < ·) := by
  induction l with
  | nil => exact List.Pairwise.nil
  | cons a l ih => exact insertAscending_pairwise ih

end TwoLevel
