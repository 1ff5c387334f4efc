/-
  Positions and variables. The positions of a vector count from its most significant bit, its
  variables from the least significant one: in width `w`, position `p` holds variable `w - 1 - p`.
  `descending f w` lists a function of the variables by position.
-/

namespace TwoLevel

variable {α : Type}

/-- The values of `f` at `w - 1, …, 1, 0`. -/
def descending (f : Nat → α) : Nat → List α
  | 0 => []
  | w + 1 => f w :: descending f w

theorem length_descending (f : Nat → α) (w : Nat) : (descending f w).length = w := by
  induction w with
  | zero => rfl
  | succ w ih => simp [descending, ih]

theorem descending_congr {f g : Nat → α} {w : Nat} (h : ∀ v < w, f v = g v) :
    descending f w = descending g w := by
  induction w with
  | zero => rfl
  | succ w ih =>
    rw [descending, descending, h w (Nat.lt_succ_self w), ih fun v hv => h v (Nat.lt_succ_of_lt hv)]

theorem zipWith_descending {β γ : Type} (op : α → β → γ) (f : Nat → α) (g : Nat → β) (w : Nat) :
    List.zipWith op (descending f w) (descending g w) = descending (fun v => op (f v) (g v)) w := by
  induction w with
  | zero => rfl
  | succ w ih => rw [descending, descending, descending, List.zipWith_cons_cons, ih]

theorem getElem?_descending_of_le (f : Nat → α) {w p : Nat} (h : w ≤ p) :
    (descending f w)[p]? = none :=
  List.getElem?_eq_none ((length_descending f w).symm ▸ h)

theorem getElem?_descending (f : Nat → α) {w p : Nat} (h : p < w) :
    (descending f w)[p]? = some (f (w - 1 - p)) := by
  induction w generalizing p with
  | zero => omega
  | succ w ih =>
    cases p with
    | zero => simp [descending]
    | succ p =>
      rw [descending, List.getElem?_cons_succ, ih (by omega)]
      congr 2
      omega

end TwoLevel
