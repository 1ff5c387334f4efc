/-
  Numbers written with the ten ASCII digits. `value (digits n) = n`; `digits n` has no leading
  zero, and `isCanonical` tells the digit strings without one. For these `digits (value cs) = cs`.
-/

namespace TwoLevel.Text

/-- The decimal digits of a number, without leading zeros. -/
def digits (n : Nat) : List Char :=
  Nat.toDigits 10 n

/-- The number which a list of digits denotes; leading zeros are allowed. -/
def value (cs : List Char) : Nat :=
  Nat.ofDigitChars 10 cs 0

/-- The texts `0`, and the non-empty lists of digits which do not start with `0`. -/
def isCanonical (cs : List Char) : Bool :=
  cs.all Char.isDigit && (cs == ['0'] || (cs != [] && cs.head? != some '0'))

@[simp] theorem value_digits (n : Nat) : value (digits n) = n :=
  Nat.ofDigitChars_toDigits (by decide) (by decide)

theorem isDigit_of_mem_digits {n : Nat} {c : Char} (h : c ∈ digits n) : c.isDigit = true :=
  Nat.isDigit_of_mem_toDigits (by decide) (by decide) h

theorem digits_ne_nil (n : Nat) : digits n ≠ [] :=
  Nat.toDigits_ne_nil

theorem head?_digits_ne_zero {n : Nat} (h : 0 < n) : (digits n).head? ≠ some '0' := by
  unfold digits
  induction n using Nat.strongRecOn with
  | ind n ih =>
    by_cases hn : n < 10
    · rw [Nat.toDigits_of_lt_base hn, List.head?_cons, ne_eq, Option.some_inj,
        Nat.digitChar_eq_zero]
      exact Nat.ne_of_gt h
    · have hhead := ih (n / 10) (by omega) (by omega)
      rw [Nat.toDigits_of_base_le (by decide) (by omega), List.head?_append]
      cases hfirst : (Nat.toDigits 10 (n / 10)).head? with
      | none => exact absurd (List.head?_eq_none_iff.mp hfirst) Nat.toDigits_ne_nil
      | some c => rwa [hfirst] at hhead

theorem isCanonical_digits (n : Nat) : isCanonical (digits n) = true := by
  have hall : (digits n).all Char.isDigit = true :=
    List.all_eq_true.mpr fun c hc => isDigit_of_mem_digits hc
  rcases Nat.eq_zero_or_pos n with rfl | hn
  · decide
  · simp [isCanonical, hall, digits_ne_nil, head?_digits_ne_zero hn]

theorem digits_digit {c : Char} (h : c.isDigit = true) : digits (c.toNat - '0'.toNat) = [c] := by
  have hchar : ∀ d < 10, Nat.digitChar d = Char.ofNat (d + '0'.toNat) := by decide
  obtain ⟨hlow, hhigh⟩ : '0'.toNat ≤ c.toNat ∧ c.toNat ≤ '9'.toNat := Char.isDigit_iff_toNat.mp h
  have hlt : c.toNat - '0'.toNat < 10 := Nat.lt_succ_of_le (Nat.sub_le_sub_right hhigh _)
  rw [digits, Nat.toDigits_of_lt_base hlt, hchar _ hlt, Nat.sub_add_cancel hlow, Char.ofNat_toNat]

/-- Digits which follow those of a positive number. -/
theorem digits_ofDigitChars {cs : List Char} (h : ∀ c ∈ cs, c.isDigit = true) {n : Nat}
    (hn : 0 < n) : digits (Nat.ofDigitChars 10 cs n) = digits n ++ cs := by
  induction cs generalizing n with
  | nil => exact (List.append_nil _).symm
  | cons c cs ih =>
    obtain ⟨hc, hcs⟩ := List.forall_mem_cons.mp h
    have hlast : digits (10 * n + (c.toNat - '0'.toNat)) = digits n ++ [c] := by
      have hlt : c.toNat - '0'.toNat < 10 :=
        Nat.lt_succ_of_le (Nat.sub_le_sub_right (Char.isDigit_iff_toNat.mp hc).2 _)
      rw [← digits_digit hc]
      exact (Nat.toDigits_append_toDigits (by decide) hn hlt).symm
    rw [Nat.ofDigitChars_cons, ih hcs (by omega), hlast, List.append_assoc]
    rfl

/-- Without a leading zero the digits are found again. -/
theorem digits_value {cs : List Char} (h : isCanonical cs = true) : digits (value cs) = cs := by
  rw [isCanonical, Bool.and_eq_true, Bool.or_eq_true, List.all_eq_true, beq_iff_eq] at h
  obtain ⟨hdigits, rfl | hhead⟩ := h
  · rfl
  · obtain _ | ⟨d, ds⟩ := cs
    · cases hhead
    · obtain ⟨hd, hds⟩ := List.forall_mem_cons.mp hdigits
      have hne : d ≠ '0' := by simpa using hhead
      have hpos : 0 < d.toNat - '0'.toNat := by
        refine Nat.sub_pos_of_lt (Nat.lt_of_le_of_ne (Char.isDigit_iff_toNat.mp hd).1 fun heq => ?_)
        exact hne (Char.toNat_inj.mp heq.symm)
      rw [value, Nat.ofDigitChars_cons, Nat.mul_zero, Nat.zero_add, digits_ofDigitChars hds hpos,
        digits_digit hd]
      rfl
end TwoLevel.Text
