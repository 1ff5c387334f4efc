/-
  Insertion sort. Elements which the order does not tell apart keep their order of appearance:
  an element is inserted before the first element which it does not have to follow.
-/

namespace TwoLevel

variable {α : Type}

/-- Inserts `a` before the first element `b` with `le a b`. -/
def insertSorted (le : α → α → Bool) (a : α) : List α → List α
  | [] => [a]
  | b :: l => if le a b then a :: b :: l else b :: insertSorted le a l

/-- The elements of a list in the order `le`; ties keep their order. -/
def stableSort (le : α → α → Bool) (l : List α) : List α :=
  l.foldr (insertSorted le) []

/-- The elements of a list by decreasing key, each key being computed once; ties keep their
    order. -/
def sortDescending (key : α → Nat) (l : List α) : List α :=
  (stableSort (fun a b => decide (b.2 ≤ a.2)) (l.map fun a => (a, key a))).map (·.1)

theorem insertSorted_perm (le : α → α → Bool) (a : α) (l : List α) :
    (insertSorted le a l).Perm (a :: l) := by
  induction l with
  | nil => exact List.Perm.refl _
  | cons b l ih =>
    simp only [insertSorted]
    split
    · exact List.Perm.refl _
    · exact (ih.cons b).trans (List.Perm.swap a b l)

theorem stableSort_perm (le : α → α → Bool) (l : List α) : (stableSort le l).Perm l := by
  induction l with
  | nil => exact List.Perm.refl _
  | cons a l ih => exact (insertSorted_perm le a _).trans (ih.cons a)

theorem mem_stableSort {le : α → α → Bool} {a : α} {l : List α} :
    a ∈ stableSort le l ↔ a ∈ l :=
  (stableSort_perm le l).mem_iff

/-! ## Order and stability -/

section Stable

variable {le : α → α → Bool} (total : ∀ a b, le a b = true ∨ le b a = true)
  (trans : ∀ a b c, le a b = true → le b c = true → le a c = true)

include total trans

/-- An element which stood before all others in `S` is inserted into a list in order. The result
    is in order, and elements which `le` does not tell apart are in the order `S`. -/
theorem insertSorted_stable {S : α → α → Prop} {a : α} {l : List α} (ha : ∀ x ∈ l, S a x)
    (h : l.Pairwise fun x y => le x y = true ∧ (le y x = true → S x y)) :
    (insertSorted le a l).Pairwise fun x y => le x y = true ∧ (le y x = true → S x y) := by
  induction l with
  | nil => exact List.pairwise_singleton _ a
  | cons b l ih =>
    have hb := List.pairwise_cons.mp h
    simp only [insertSorted]
    split
    · next hab =>
      refine List.pairwise_cons.mpr ⟨fun x hx => ⟨?_, fun _ => ha x hx⟩, h⟩
      rcases List.mem_cons.mp hx with rfl | hx
      · exact hab
      · exact trans a b x hab (hb.1 x hx).1
    · next hab =>
      refine List.pairwise_cons.mpr
        ⟨fun x hx => ?_, ih (fun x hx => ha x (List.mem_cons_of_mem b hx)) hb.2⟩
      rcases List.mem_cons.mp ((insertSorted_perm le a l).mem_iff.mp hx) with rfl | hx
      · exact ⟨(total x b).resolve_left hab, fun hxb => absurd hxb hab⟩
      · exact hb.1 x hx

/-- If `le` is total and transitive, a list is sorted in the order `le`; elements which it does not
    tell apart keep the order `S` in which they stood. -/
theorem stableSort_stable {S : α → α → Prop} {l : List α} (h : l.Pairwise S) :
    (stableSort le l).Pairwise fun x y => le x y = true ∧ (le y x = true → S x y) := by
  induction l with
  | nil => exact List.Pairwise.nil
  | cons a l ih =>
    obtain ⟨ha, hl⟩ := List.pairwise_cons.mp h
    exact insertSorted_stable total trans (fun x hx => ha x (mem_stableSort.mp hx)) (ih hl)

theorem stableSort_pairwise (l : List α) :
    (stableSort le l).Pairwise fun x y => le x y = true :=
  (stableSort_stable total trans (List.pairwise_of_forall fun _ _ => trivial)).imp And.left

end Stable

/-- A list in order stays as it is. -/
theorem stableSort_eq_self {le : α → α → Bool} {l : List α}
    (h : l.Pairwise fun x y => le x y = true) : stableSort le l = l := by
  induction l with
  | nil => rfl
  | cons a l ih =>
    obtain ⟨ha, hl⟩ := List.pairwise_cons.mp h
    rw [stableSort, List.foldr_cons]
    refine (congrArg (insertSorted le a) (ih hl)).trans ?_
    cases l with
    | nil => rfl
    | cons b l => exact if_pos (ha b List.mem_cons_self)

/-! ## Decreasing keys -/

theorem sortDescending_perm (key : α → Nat) (l : List α) : (sortDescending key l).Perm l := by
  have h := (stableSort_perm (fun a b : α × Nat => decide (b.2 ≤ a.2))
    (l.map fun a => (a, key a))).map (·.1)
  simpa [sortDescending, Function.comp_def] using h

theorem sortDescending_stable {S : α → α → Prop} (key : α → Nat) {l : List α} (h : l.Pairwise S) :
    (sortDescending key l).Pairwise fun x y => key y ≤ key x ∧ (key x = key y → S x y) := by
  have hkeys : ∀ x ∈ stableSort (fun a b : α × Nat => decide (b.2 ≤ a.2))
      (l.map fun a => (a, key a)), x.2 = key x.1 := by
    intro x hx
    obtain ⟨a, _, rfl⟩ := List.mem_map.mp (mem_stableSort.mp hx)
    rfl
  have hstood : (l.map fun a => (a, key a)).Pairwise fun x y => S x.1 y.1 :=
    List.pairwise_map.mpr h
  have htotal : ∀ a b : α × Nat, decide (b.2 ≤ a.2) = true ∨ decide (a.2 ≤ b.2) = true :=
    fun a b => by simpa using Nat.le_total b.2 a.2
  have htrans : ∀ a b c : α × Nat, decide (b.2 ≤ a.2) = true → decide (c.2 ≤ b.2) = true →
      decide (c.2 ≤ a.2) = true := by
    simp only [decide_eq_true_eq]
    omega
  have hsorted := stableSort_stable htotal htrans hstood
  refine List.pairwise_map.mpr (hsorted.imp_of_mem fun {x y} hx hy hxy => ?_)
  rw [← hkeys x hx, ← hkeys y hy]
  exact ⟨of_decide_eq_true hxy.1, fun heq => hxy.2 (decide_eq_true (Nat.le_of_eq heq))⟩

/-- A list by decreasing key stays as it is. -/
theorem sortDescending_eq_self {key : α → Nat} {l : List α}
    (h : l.Pairwise fun x y => key y ≤ key x) : sortDescending key l = l := by
  have hpairs : (l.map fun a => (a, key a)).Pairwise
      fun x y => decide (y.2 ≤ x.2) = true := List.pairwise_map.mpr (h.imp decide_eq_true)
  rw [sortDescending, stableSort_eq_self hpairs, List.map_map]
  exact List.map_id l

end TwoLevel
