/-
  Cubes, or product terms: each position of the minterms is fixed to a value or left free.

  A cube is tested in two ways: `contains` compares its positions with those of a vector, `eval`
  tests its literals on a minterm. `literals` and `ofLiterals` go from the positions to the
  variables and back.
-/
import TwoLevel.BitVector
import TwoLevel.Literal

namespace TwoLevel

/-- What a cube asks of one position. -/
inductive Ternary where
  | zero
  | one
  | free
  deriving DecidableEq

namespace Ternary

/-- A bit agrees with the value. -/
def accepts : Ternary → Bool → Bool
  | zero, b => !b
  | one, b => b
  | free, _ => true

/-- The bit to which the position is fixed. -/
def polarity? : Ternary → Option Bool
  | zero => some false
  | one => some true
  | free => none

def ofPolarity : Option Bool → Ternary
  | none => free
  | some false => zero
  | some true => one

def char : Ternary → Char
  | zero => '0'
  | one => '1'
  | free => '-'

/-- The value which a character stands for; a free position has two characters. -/
def symbol? : Char → Option Ternary
  | '0' => some zero
  | '1' => some one
  | '-' => some free
  | '*' => some free
  | _ => none

@[simp] theorem ofPolarity_polarity? (t : Ternary) : ofPolarity t.polarity? = t := by
  cases t <;> rfl

@[simp] theorem polarity?_ofPolarity (b : Option Bool) : (ofPolarity b).polarity? = b := by
  rcases b with _ | _ | _ <;> rfl

end Ternary

/-- A product term over the variables of a fixed width. -/
structure Cube where
  /-- The most significant position comes first. -/
  values : List Ternary
  deriving DecidableEq

namespace Cube

/-- Number of positions. -/
def width (c : Cube) : Nat :=
  c.values.length

/-- The cube which fixes nothing. -/
def universal (w : Nat) : Cube :=
  ⟨List.replicate w .free⟩

/-- The cube which fixes the variables below `w` named by the literals; of two literals on one
    variable the last one counts. -/
def ofLiterals (w : Nat) (lits : List Literal) : Cube :=
  ⟨descending (fun v => .ofPolarity (Literal.polarity? lits v)) w⟩

/-- As `ofLiterals`, where each literal has to name a variable below `w`. -/
def ofLiterals? (w : Nat) (lits : List Literal) : Option Cube :=
  if lits.all fun l => decide (l.index < w) then some (ofLiterals w lits) else none

/-- Each value accepts the bit at its position. Missing bits are clear, further ones do not
    count. -/
def acceptsBits : List Ternary → List Bool → Bool
  | [], _ => true
  | t :: ts, [] => t.accepts false && acceptsBits ts []
  | t :: ts, b :: bs => t.accepts b && acceptsBits ts bs

/-- The vector agrees with every fixed position. -/
def contains (c : Cube) (v : BitVector) : Bool :=
  acceptsBits c.values v.bits

/-- The literals of a list of values. A value is that of the variable whose index is the number
    of values after it. -/
def literalsOf : List Ternary → List Literal
  | [] => []
  | t :: ts =>
    match t.polarity? with
    | some b => ⟨ts.length, b⟩ :: literalsOf ts
    | none => literalsOf ts

/-- The fixed positions as literals, from the most significant variable down. -/
def literals (c : Cube) : List Literal :=
  literalsOf c.values

/-- Number of fixed positions. -/
def literalCount (c : Cube) : Nat :=
  c.values.countP (· != .free)

/-- No position is fixed. -/
def isUniversal (c : Cube) : Bool :=
  c.literalCount == 0

/-- Every literal holds on the minterm. -/
def eval (c : Cube) (n : UInt64) : Bool :=
  c.literals.all (·.eval n)

/-- Reads a cube of `0`, `1` and `-`, the last of which may also be written `*`. -/
def parse (text : String) : Except TextError Cube :=
  (Text.readPattern Ternary.symbol? text).map .mk

/-- The positions as a text of `0`, `1` and `-`. -/
def text (c : Cube) : String :=
  String.ofList (c.values.map Ternary.char)

@[simp] theorem width_ofLiterals (w : Nat) (lits : List Literal) :
    (ofLiterals w lits).width = w :=
  length_descending _ w

@[simp] theorem width_universal (w : Nat) : (universal w).width = w :=
  List.length_replicate

end Cube

end TwoLevel
