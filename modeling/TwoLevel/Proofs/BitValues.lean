/-
  The words which vectors denote.

  Of the vector of a word the value is the remainder modulo `2 ^ w`, where `w` is its width
  (`valueOfBits_encode`), so that reading the vector gives this remainder
  (`toNat_decode_encode`). In the other direction only the variables from 64 up are lost
  (`get_encode_decode`): a vector is found again exactly if all of them are clear
  (`encode_decode_eq_iff`).
-/
import TwoLevel.BitVector
import Mathlib

namespace TwoLevel

/-! ## Lists of bits -/

theorem valueOfBits_cons (b : Bool) (bits : List Bool) :
    valueOfBits (b :: bits) = b.toNat * 2 ^ bits.length + valueOfBits bits :=
  rfl

theorem valueOfBits_lt (bits : List Bool) : valueOfBits bits < 2 ^ bits.length := by
  induction bits with
  | nil => exact Nat.one_pos
  | cons b bits ih =>
    have hb : b.toNat * 2 ^ bits.length ≤ 1 * 2 ^ bits.length :=
      Nat.mul_le_mul_right _ b.toNat_le
    rw [valueOfBits_cons, List.length_cons, Nat.pow_succ]
    omega

/-- The bit of a variable stands at its position. -/
theorem testBit_valueOfBits (bits : List Bool) (v : Nat) :
    (valueOfBits bits).testBit v =
      (decide (v < bits.length) && bits.getD (bits.length - 1 - v) false) := by
  induction bits with
  | nil => exact Nat.zero_testBit v
  | cons b bits ih =>
    rw [valueOfBits_cons, Nat.mul_comm, Nat.testBit_two_pow_mul_add _ (valueOfBits_lt bits), ih,
      List.length_cons]
    rcases Nat.lt_trichotomy v bits.length with hv | rfl | hv
    · have hpos : bits.length + 1 - 1 - v = bits.length - 1 - v + 1 := by omega
      rw [if_pos hv, hpos, List.getD_cons_succ, decide_eq_true hv,
        decide_eq_true (Nat.lt_succ_of_lt hv)]
    · cases b <;> simp
    · have hpow : b.toNat < 2 ^ (v - bits.length) :=
        Nat.lt_of_le_of_lt b.toNat_le (Nat.one_lt_two_pow (by omega))
      rw [if_neg (Nat.not_lt_of_gt hv), Nat.testBit_lt_two_pow hpow,
        decide_eq_false (by omega), Bool.false_and]

/-- The first bit is the one of the greatest variable. -/
theorem valueOfBits_descending (n w : Nat) :
    valueOfBits (descending n.testBit w) = n % 2 ^ w := by
  refine Nat.eq_of_testBit_eq fun v => ?_
  rw [testBit_valueOfBits, length_descending, Nat.testBit_mod_two_pow, List.getD_eq_getElem?_getD]
  by_cases hv : v < w
  · rw [getElem?_descending _ (by omega), show w - 1 - (w - 1 - v) = v by omega]
    rfl
  · simp [hv]

/-! ## Vectors and words -/

namespace BitVector

theorem get_of_le (v : BitVector) {pos : Nat} (h : v.width ≤ pos) : v.get pos = false :=
  List.getD_eq_default _ _ h

theorem lt_width_of_get (v : BitVector) {pos : Nat} (h : v.get pos = true) : pos < v.width := by
  refine Nat.lt_of_not_le fun hle => ?_
  rw [v.get_of_le hle] at h
  cases h

theorem get_xor {a b : BitVector} (h : a.width = b.width) (pos : Nat) :
    (a.xor b).get pos = (a.get pos ^^ b.get pos) := by
  have hlen : a.bits.length = b.bits.length := h
  simp only [get, xor, List.getD_eq_getElem?_getD, List.getElem?_zipWith]
  by_cases hpos : pos < a.bits.length
  · simp [hpos, hlen ▸ hpos]
  · simp [hpos, hlen ▸ hpos]

/-- A vector is determined by its width and its bits. -/
theorem ext_get {u v : BitVector} (hwidth : u.width = v.width)
    (h : ∀ pos, u.get pos = v.get pos) : u = v := by
  have hbits : u.bits = v.bits := by
    refine List.ext_getElem hwidth fun pos hu hv => ?_
    rw [← List.getD_eq_getElem _ false hu, ← List.getD_eq_getElem _ false hv]
    exact h pos
  cases u
  cases v
  exact congrArg mk hbits

end BitVector

/-- The set bits of the word are the set bits of the vector, as far as it has room for them. -/
theorem testBit_decode (v : BitVector) (i : Nat) :
    (decode v).toNat.testBit i =
      (decide (i < 64) && (decide (i < v.width) && v.get (v.width - 1 - i))) := by
  rw [decode, UInt64.toNat_ofNat', Nat.testBit_mod_two_pow, testBit_valueOfBits]
  rfl

theorem get_encode (n : UInt64) (w pos : Nat) :
    (encode n w).get pos = (decide (pos < w) && n.toNat.testBit (w - 1 - pos)) := by
  unfold BitVector.get encode
  rw [List.getD_eq_getElem?_getD]
  by_cases hpos : pos < w
  · simp [getElem?_descending _ hpos, hpos]
  · simp [getElem?_descending_of_le _ (Nat.le_of_not_lt hpos), hpos]

theorem toNat_decode_encode (n : UInt64) (w : Nat) :
    (decode (encode n w)).toNat = n.toNat % 2 ^ w := by
  rw [decode, encode, valueOfBits_descending]
  exact UInt64.toNat_ofNat_of_lt' (Nat.lt_of_le_of_lt (Nat.mod_le _ _) n.toNat_lt)

theorem decode_encode_of_lt {n : UInt64} {w : Nat} (h : n.toNat < 2 ^ w) :
    decode (encode n w) = n := by
  rw [← UInt64.toNat_inj, toNat_decode_encode, Nat.mod_eq_of_lt h]

/-- Words below `2 ^ w` are told apart by their vectors of width `w`. -/
theorem encode_injective {n m : UInt64} {w : Nat} (hn : n.toNat < 2 ^ w) (hm : m.toNat < 2 ^ w)
    (h : encode n w = encode m w) : n = m :=
  calc n = decode (encode n w) := (decode_encode_of_lt hn).symm
    _ = decode (encode m w) := congrArg decode h
    _ = m := decode_encode_of_lt hm

/-- A vector keeps its bits, but for those of the variables from 64 up. -/
theorem get_encode_decode (v : BitVector) (pos : Nat) :
    (encode (decode v) v.width).get pos = (decide (v.variableAt pos < 64) && v.get pos) := by
  rw [get_encode, testBit_decode]
  by_cases hpos : pos < v.width
  · have hvar : v.width - 1 - pos < v.width := by omega
    rw [decide_eq_true hpos, decide_eq_true hvar, Bool.true_and, Bool.true_and,
      show v.width - 1 - (v.width - 1 - pos) = pos by omega]
    rfl
  · rw [decide_eq_false hpos, Bool.false_and, v.get_of_le (Nat.le_of_not_lt hpos), Bool.and_false]

theorem encode_decode_eq_iff (v : BitVector) :
    encode (decode v) v.width = v ↔ ∀ pos, v.get pos = true → v.variableAt pos < 64 := by
  constructor
  · intro h pos hpos
    have hget := get_encode_decode v pos
    rw [h, hpos, Bool.and_true] at hget
    exact of_decide_eq_true hget.symm
  · intro h
    refine BitVector.ext_get (BitVector.width_encode _ _) fun pos => ?_
    rw [get_encode_decode]
    cases hpos : v.get pos with
    | true => rw [decide_eq_true (h pos hpos), Bool.and_true]
    | false => rw [Bool.and_false]

theorem encode_xor (a b : UInt64) (w : Nat) :
    (encode a w).xor (encode b w) = encode (a ^^^ b) w := by
  refine congrArg BitVector.mk ((zipWith_descending _ _ _ w).trans (descending_congr fun v _ => ?_))
  rw [UInt64.toNat_xor, Nat.testBit_xor]

end TwoLevel
