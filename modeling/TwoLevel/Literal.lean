/-
  Literals: a variable together with the value which it has to take. A variable is the index of
  a bit of the minterm, counted from the least significant one.
-/
import TwoLevel.Text.Decimal

namespace TwoLevel

/-- A condition on the variable with this index: set if `positive`, else clear. -/
structure Literal where
  index : Nat
  positive : Bool
  deriving DecidableEq

namespace Literal

/-- The literal holds on a minterm. Bits from 64 up are clear. -/
def eval (l : Literal) (n : UInt64) : Bool :=
  n.toNat.testBit l.index == l.positive

/-- The canonical text: `x`, the index, and a trailing backquote on a negative literal. -/
def chars (l : Literal) : List Char :=
  'x' :: (Text.digits l.index ++ if l.positive then [] else ['\x60'])

def text (l : Literal) : String :=
  String.ofList l.chars

/-- The value which the last literal naming `v` gives to it, if one names it. -/
def polarity? : List Literal → Nat → Option Bool
  | [], _ => none
  | l :: ls, v => (polarity? ls v).or (if l.index = v then some l.positive else none)

end Literal

end TwoLevel
