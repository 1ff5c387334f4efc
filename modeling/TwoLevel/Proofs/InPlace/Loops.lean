/-
  Loops which change a list in place. Every element is reached by its index, and `none` is an
  index out of range.

  A loop which removes elements visits the positions from the last to the first, so that a removal
  does not move the positions still to visit. `removeDown_eq_filter`: such a loop never leaves the
  list, and what it leaves of the visited part is a filter. The removal of dominated rows is one
  such loop for each row (`reduceDominated_refines`).
-/
import TwoLevel.Proofs.Dominance
import TwoLevel.Proofs.Lookup

namespace TwoLevel

namespace InPlace

variable {α : Type}

/-- Removes the element at a position, which has to exist. -/
def removeAt (l : List α) (i : Nat) : Option (List α) :=
  if i < l.length then some (l.eraseIdx i) else none

def removeIf (remove : Bool) (l : List α) (i : Nat) : Option (List α) :=
  if remove then removeAt l i else some l

/-- Visits `count` positions, from the last one down to `start`, and removes the elements which
    pass the test. The test reads the list as it is when the position is visited. -/
def removeDown (test : List α → Nat → Option Bool) (start : Nat) :
    Nat → List α → Option (List α)
  | 0, l => some l
  | count + 1, l => do
    let remove ← test l (start + count)
    let left ← removeIf remove l (start + count)
    removeDown test start count left

theorem removeAt_append (front : List α) (a : α) (back : List α) :
    removeAt (front ++ a :: back) front.length = some (front ++ back) := by
  have hlt : front.length < (front ++ a :: back).length := by
    rw [List.length_append, List.length_cons]
    omega
  unfold removeAt
  rw [if_pos hlt, List.eraseIdx_append_of_length_le (Nat.le_refl _), Nat.sub_self]
  rfl

theorem length_removeAt_le {l left : List α} {i : Nat} (h : removeAt l i = some left) :
    left.length ≤ l.length := by
  unfold removeAt at h
  split at h
  · rw [← Option.some.inj h]
    exact List.length_eraseIdx_le l i
  · cases h

theorem length_removeIf_le {remove : Bool} {l left : List α} {i : Nat}
    (h : removeIf remove l i = some left) : left.length ≤ l.length := by
  cases remove with
  | true => exact length_removeAt_le h
  | false => exact Nat.le_of_eq (congrArg List.length (Option.some.inj h).symm)

theorem length_removeDown_le {test : List α → Nat → Option Bool} {start count : Nat}
    {l left : List α} (h : removeDown test start count l = some left) :
    left.length ≤ l.length := by
  induction count generalizing l with
  | zero => exact Nat.le_of_eq (congrArg List.length (Option.some.inj h).symm)
  | succ count ih =>
    simp only [removeDown, Option.bind_eq_bind, Option.bind_eq_some_iff] at h
    obtain ⟨remove, _, next, hnext, hleft⟩ := h
    exact Nat.le_trans (ih hleft) (length_removeIf_le hnext)

/-- If the test on the visited part is `p`, the elements with `p` are removed from this part. -/
theorem removeDown_eq_filter {test : List α → Nat → Option Bool} {p : α → Bool} {front : List α}
    (htest : ∀ middle a back,
      test (front ++ middle ++ a :: back) (front.length + middle.length) = some (p a))
    (middle back : List α) :
    removeDown test front.length middle.length (front ++ middle ++ back) =
      some (front ++ middle.filter (fun a => !p a) ++ back) := by
  induction middle using List.reverseRecOn generalizing back with
  | nil => simp [removeDown]
  | append_singleton middle a ih =>
    have hlist : front ++ (middle ++ [a]) ++ back = front ++ middle ++ a :: back := by simp
    have hremove : removeIf (p a) (front ++ middle ++ a :: back) (front.length + middle.length) =
        some (front ++ middle ++ if p a then back else a :: back) := by
      rw [← List.length_append]
      cases p a with
      | true => exact removeAt_append (front ++ middle) a back
      | false => rfl
    rw [List.length_append, List.length_singleton, removeDown, hlist, htest]
    simp only [Option.bind_eq_bind, Option.bind_some, hremove, ih]
    cases hp : p a <;> simp [hp]

end InPlace

/-! ## Dominated rows -/

/-- What rows kept long ago do to a scan can be done before it. -/
theorem keepMinimal_append (kept older rows : List Row) :
    keepMinimal (kept ++ older) rows =
      keepMinimal kept (rows.filter fun r => !older.any (·.subset r)) := by
  induction rows generalizing kept with
  | nil => rfl
  | cons r rows ih =>
    have hany : (kept ++ older).any (·.subset r) =
        (kept.any (·.subset r) || older.any (·.subset r)) := List.any_append
    cases hr : older.any (·.subset r) with
    | true =>
      rw [keepMinimal, if_pos (by simp [hany, hr]), List.filter_cons_of_neg (by simp [hr])]
      exact ih kept
    | false =>
      rw [List.filter_cons_of_pos (by simp [hr]), keepMinimal, keepMinimal, hany, hr,
        Bool.or_false, ih kept]
      exact congrArg (ite _ _) (congrArg (r :: ·) (ih (r :: kept)))

/-- The first row removes the later ones which include it. -/
theorem keepMinimal_nil_cons (r : Row) (rows : List Row) :
    keepMinimal [] (r :: rows) = r :: keepMinimal [] (rows.filter fun s => !r.subset s) := by
  have h := keepMinimal_append [] [r] rows
  rw [keepMinimal, if_neg (by simp)]
  simpa using h

namespace InPlace

/-- The row at `j` includes the row at `i`. -/
def includesAt (i : Nat) (rows : List Row) (j : Nat) : Option Bool := do
  let later ← rows[j]?
  let r ← rows[i]?
  return r.subset later

/-- Each row from position `i` on removes the later ones which include it. -/
def removeDominated (i : Nat) (rows : List Row) : Option (List Row) :=
  if i < rows.length then
    match h : removeDown (includesAt i) (i + 1) (rows.length - (i + 1)) rows with
    | some left => removeDominated (i + 1) left
    | none => none
  else some rows
termination_by rows.length - i
decreasing_by
  have hle := length_removeDown_le h
  omega

/-- Sorts the rows, then removes the dominated ones. -/
def reduceDominated (rows : List Row) : Option (List Row) :=
  removeDominated 0 (stableSort (fun r s => (r.order s).isLE) rows)

theorem includesAt_append (front : List Row) (r : Row) (middle : List Row) (s : Row)
    (back : List Row) :
    includesAt front.length (front ++ [r] ++ middle ++ s :: back)
      ((front ++ [r]).length + middle.length) = some (r.subset s) := by
  have hlater : (front ++ [r] ++ middle ++ s :: back)[(front ++ [r]).length + middle.length]? =
      some s := by
    rw [← List.length_append, List.getElem?_append_right (Nat.le_refl _), Nat.sub_self]
    rfl
  have hrow : (front ++ [r] ++ middle ++ s :: back)[front.length]? = some r := by simp
  unfold includesAt
  rw [hlater, hrow]
  rfl

theorem removeDominated_append (front rows : List Row) :
    removeDominated front.length (front ++ rows) = some (front ++ keepMinimal [] rows) := by
  induction h : rows.length using Nat.strongRecOn generalizing front rows with
  | ind n ih =>
    cases rows with
    | nil =>
      rw [removeDominated, if_neg (by simp)]
      rfl
    | cons r rows =>
      have hlt : front.length < (front ++ r :: rows).length := by
        rw [List.length_append, List.length_cons]
        omega
      have hcount : (front ++ r :: rows).length - (front.length + 1) = rows.length := by
        rw [List.length_append, List.length_cons]
        omega
      have hloop : removeDown (includesAt front.length) (front.length + 1)
          ((front ++ r :: rows).length - (front.length + 1)) (front ++ r :: rows) =
          some (front ++ [r] ++ rows.filter fun s => !r.subset s) := by
        have heq := removeDown_eq_filter (includesAt_append front r) rows []
        rw [hcount]
        simpa using heq
      have hnext := ih _ (by rw [← h]; exact Nat.lt_succ_of_le (List.length_filter_le _ rows))
        (front ++ [r]) (rows.filter fun s => !r.subset s) rfl
      rw [removeDominated, if_pos hlt]
      split
      · next left hleft =>
        rw [hloop, Option.some_inj] at hleft
        rw [← hleft]
        simpa [keepMinimal_nil_cons] using hnext
      · next hnone =>
        rw [hloop] at hnone
        cases hnone

theorem reduceDominated_refines (rows : List Row) :
    InPlace.reduceDominated rows = some (TwoLevel.reduceDominated rows) :=
  removeDominated_append [] _

end InPlace

end TwoLevel
