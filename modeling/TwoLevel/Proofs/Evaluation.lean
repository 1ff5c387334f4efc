/-
  The two ways to evaluate agree.

  The search compares the positions of cubes and vectors (`Cube.contains`), a result is evaluated
  by the literals of its terms on a word (`Cube.eval`). A cube holds on a word exactly if it
  contains the vector of the word in the width of the cube (`Cube.eval_eq_contains`), also if the
  width exceeds that of words. Hence a sum only depends on the bits which its width has
  (`encode_mod`).
-/
import TwoLevel.Proofs.InPlace.Evaluation
import TwoLevel.Proofs.Minimizers

namespace TwoLevel

theorem toNat_mod (n : UInt64) (w : Nat) :
    (UInt64.ofNat (n.toNat % 2 ^ w)).toNat = n.toNat % 2 ^ w :=
  UInt64.toNat_ofNat_of_lt' (Nat.lt_of_le_of_lt (Nat.mod_le _ _) n.toNat_lt)

/-- The vector of a word is that of its remainder. -/
theorem encode_mod (n : UInt64) (w : Nat) :
    encode (UInt64.ofNat (n.toNat % 2 ^ w)) w = encode n w := by
  refine congrArg BitVector.mk (descending_congr fun v hv => ?_)
  rw [toNat_mod, Nat.testBit_mod_two_pow, decide_eq_true hv, Bool.true_and]

/-- A cube of any width holds on a word exactly if it contains the vector of the word in this
    width. So a sum whose terms have its width holds on a word exactly if one of them contains the
    vector, and it has the same value on the remainder of the word modulo `2 ^ width`. The loops
    which read the cube by position and the word by shift agree. -/
theorem evaluations_agree :
    (∀ (c : Cube) (n : UInt64), c.eval n = c.contains (encode n c.width) ∧
      InPlace.eval c n = c.eval n ∧
      InPlace.contains c (InPlace.encode n c.width) = c.contains (encode n c.width)) ∧
    ∀ e : Expression, e.Uniform → ∀ n : UInt64,
      (e.eval n = true ↔ ∃ t ∈ e.terms, t.contains (encode n e.width) = true) ∧
      e.eval n = e.eval (UInt64.ofNat (n.toNat % 2 ^ e.width)) := by
  refine ⟨fun c n => ⟨c.eval_eq_contains n, InPlace.eval_refines c n, ?_⟩,
    fun e he n => ⟨eval_eq_true_iff he, ?_⟩⟩
  · rw [InPlace.encode_refines, InPlace.contains_refines]
  · rw [Bool.eq_iff_iff, eval_eq_true_iff he, eval_eq_true_iff he, encode_mod]

/-- In width 3 the word 13 counts as 5, in width 65 the variable of index 64 is clear. -/
theorem evaluations_agree_at_limit :
    let narrow : Expression := .ofTerms 3 [⟨[.one, .zero, .free]⟩, ⟨[.zero, .free, .one]⟩]
    let wide : Expression := .ofTerms 65 [.ofLiterals 65 [⟨64, false⟩, ⟨63, true⟩]]
    narrow.Uniform ∧ wide.Uniform ∧
      narrow.eval 13 = narrow.eval 5 ∧
      (narrow.eval 13 = true ↔ ∃ t ∈ narrow.terms, t.contains ⟨[true, false, true]⟩ = true) ∧
      (wide.eval 9223372036854775808 = true ↔
        ∃ t ∈ wide.terms, t.contains (encode 9223372036854775808 65) = true) := by
  intro narrow wide
  have hnarrow : narrow.Uniform := by decide
  have hwide : wide.Uniform := by decide
  have hremainder : UInt64.ofNat ((13 : UInt64).toNat % 2 ^ narrow.width) = 5 := by decide
  obtain ⟨hiff, hmod⟩ := evaluations_agree.2 narrow hnarrow 13
  rw [hremainder] at hmod
  exact ⟨hnarrow, hwide, hmod, hiff, (evaluations_agree.2 wide hwide _).1⟩

end TwoLevel
