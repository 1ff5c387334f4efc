/-
  Vectors by position, and words by shift.

  A vector is the set of its set positions, which count from the most significant bit. A bit of a
  word is read by a shift, which is defined below 64 only; the bits count from the least
  significant one. With these, a cube is tested by loops over its positions. They agree with the
  definitions on lists of values and bits (`encode_refines`, `contains_refines`, `eval_refines`).
-/
import TwoLevel.Proofs.Literals

namespace TwoLevel.InPlace

/-! ## Words -/

/-- A bit of a word, clear from 64 up. -/
def bit (n : UInt64) (v : Nat) : Bool :=
  decide (v < 64) && (n >>> UInt64.ofNat v) &&& 1 == 1

/-- The set positions of the vector of a word in width `w`. -/
def encode (n : UInt64) (w : Nat) : Row :=
  .ofList ((List.range w).filter fun pos => bit n (w - 1 - pos))

/-- A shift by fewer than 64 places is taken as it is. -/
theorem toNat_shift {v : Nat} (hv : v < 64) : (UInt64.ofNat v).toNat % 64 = v := by
  rw [UInt64.toNat_ofNat_of_lt' (Nat.lt_trans hv (by decide)), Nat.mod_eq_of_lt hv]

theorem bit_eq_testBit (n : UInt64) (v : Nat) : bit n v = n.toNat.testBit v := by
  unfold bit
  by_cases hv : v < 64
  · rw [decide_eq_true hv, Bool.true_and, Bool.eq_iff_iff, beq_iff_eq, ← UInt64.toNat_inj,
      UInt64.toNat_and, UInt64.toNat_shiftRight, toNat_shift hv]
    show n.toNat >>> v &&& 1 = 1 ↔ _
    rw [Nat.testBit_eq_decide_div_mod_eq, decide_eq_true_eq, Nat.and_one_is_mod,
      Nat.shiftRight_eq_div_pow]
  · have hlt : n.toNat < 2 ^ v :=
      Nat.lt_of_lt_of_le n.toNat_lt (Nat.pow_le_pow_right (by decide) (Nat.le_of_not_lt hv))
    rw [decide_eq_false hv, Bool.false_and, Nat.testBit_lt_two_pow hlt]

theorem encode_refines (n : UInt64) (w : Nat) :
    InPlace.encode n w = .ofBits (TwoLevel.encode n w).bits := by
  refine Row.ext fun pos => ?_
  unfold InPlace.encode TwoLevel.encode Row.ofBits
  rw [Row.mem_ofList, List.mem_filter, List.mem_range, Row.mem_positions, bit_eq_testBit]
  by_cases hpos : pos < w
  · simp [getElem?_descending _ hpos, hpos]
  · simp [getElem?_descending_of_le _ (Nat.le_of_not_lt hpos), hpos]

/-! ## Cubes -/

/-- Every value accepts the bit at its position, which is set if the set has the position. -/
def contains (c : Cube) (v : Row) : Bool :=
  c.values.zipIdx.all fun x => x.1.accepts (v.contains x.2)

/-- The fixed positions as literals, from the first position to the last. -/
def literals (c : Cube) : List Literal :=
  c.values.zipIdx.filterMap fun x => x.1.polarity?.map (Literal.mk (c.width - 1 - x.2))

/-- Every literal holds on the word. -/
def eval (c : Cube) (n : UInt64) : Bool :=
  (literals c).all fun l => bit n l.index == l.positive

/-- The values from position `k` on, against the bits from there. -/
theorem all_accepts_zipIdx {v : Row} {ts : List Ternary} {bits : List Bool} {k : Nat}
    (h : ∀ i, v.contains (k + i) = bits.getD i false) :
    ((ts.zipIdx k).all fun x => x.1.accepts (v.contains x.2)) = Cube.acceptsBits ts bits := by
  induction ts generalizing bits k with
  | nil => cases bits <;> rfl
  | cons t ts ih =>
    have hnext : ∀ i, v.contains (k + 1 + i) = (bits.drop 1).getD i false := by
      intro i
      rw [show k + 1 + i = k + (i + 1) by omega, h]
      simp [List.getD_eq_getElem?_getD]
    rw [List.zipIdx_cons, List.all_cons, ih hnext, show v.contains k = _ from h 0]
    cases bits <;> rfl

theorem contains_refines (c : Cube) (v : BitVector) :
    InPlace.contains c (.ofBits v.bits) = c.contains v := by
  refine all_accepts_zipIdx fun i => ?_
  rw [Nat.zero_add, Bool.eq_iff_iff, Row.contains_iff, Row.ofBits, Row.mem_positions,
    List.getD_eq_getElem?_getD]
  cases v.bits[i]? <;> simp

/-- Of `k + ts.length` positions the first `k` are past. -/
theorem filterMap_zipIdx_literalsOf (ts : List Ternary) (k : Nat) :
    ((ts.zipIdx k).filterMap fun x =>
        x.1.polarity?.map (Literal.mk (k + ts.length - 1 - x.2))) = Cube.literalsOf ts := by
  induction ts generalizing k with
  | nil => rfl
  | cons t ts ih =>
    have hlength : k + (t :: ts).length = k + 1 + ts.length := by
      rw [List.length_cons]
      omega
    have hindex : k + 1 + ts.length - 1 - k = ts.length := by omega
    rw [hlength, List.zipIdx_cons, List.filterMap_cons, ih, hindex, Cube.literalsOf]
    cases t.polarity? <;> rfl

theorem literals_refines (c : Cube) : InPlace.literals c = c.literals := by
  have hloop := filterMap_zipIdx_literalsOf c.values 0
  rwa [Nat.zero_add] at hloop

theorem eval_refines (c : Cube) (n : UInt64) : InPlace.eval c n = c.eval n := by
  unfold InPlace.eval Cube.eval Literal.eval
  rw [literals_refines]
  simp only [bit_eq_testBit]

end TwoLevel.InPlace
