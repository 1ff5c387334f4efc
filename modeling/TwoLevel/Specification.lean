/-
  Incompletely specified functions. The ON-set holds the minterms where the function is true, the
  OFF-set those where it is false; it is free on all others.

  `Specification.ofLists` accepts two lists of integers if none is negative and no value is in
  both. The sets are then held in increasing order, encoded in the smallest width for all.
-/
import TwoLevel.BitVector
import TwoLevel.Error
import TwoLevel.Sequence.Ascending

namespace TwoLevel

/-- The ON-set and the OFF-set of a function, as vectors of one width. -/
structure Specification where
  width : Nat
  on : List BitVector
  off : List BitVector
  deriving DecidableEq

/-- The values of a list in increasing order, or the first one which is negative. -/
def checkedMinterms (ns : List Int64) : Except InputError (List UInt64) :=
  match ns.find? fun n => decide (n.toInt < 0) with
  | some n => .error (.negative n)
  | none => .ok (ascending (ns.map fun n => UInt64.ofNat n.toInt.toNat))

/-- Of the errors, the first negative value of the ON-set wins over the first one of the
    OFF-set, and this over the smallest shared value. -/
def Specification.ofLists (on off : List Int64) : Except InputError Specification := do
  let on ← checkedMinterms on
  let off ← checkedMinterms off
  match on.find? fun n => decide (n ∈ off) with
  | some n => throw (.shared n)
  | none =>
    let width := widthFor on off
    return ⟨width, on.map (encode · width), off.map (encode · width)⟩

end TwoLevel
