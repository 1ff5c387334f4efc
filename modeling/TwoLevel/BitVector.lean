/-
  Minterms as vectors of bits. A minterm is the index of a row of the truth table, a 64-bit word;
  in width `w` it is written with its `w` lowest bits, the most significant first.

  `encode` drops the bits from `w` up and pads with clear bits above 64; `decode` reads a vector
  back and ignores what does not fit into a word.
-/
import TwoLevel.Sequence.Descending
import TwoLevel.Text.Pattern

namespace TwoLevel

/-- The bits of a minterm in a fixed width. -/
structure BitVector where
  /-- The most significant bit comes first. -/
  bits : List Bool
  deriving DecidableEq

/-- Number of bits which are enough for every minterm of both lists, and at least 1. -/
def widthFor (on off : List UInt64) : Nat :=
  (((on ++ off).map UInt64.toNat).max?.getD 0).log2 + 1

/-- The number which a list of bits denotes, the most significant bit first. -/
def valueOfBits : List Bool → Nat
  | [] => 0
  | b :: bs => b.toNat * 2 ^ bs.length + valueOfBits bs

/-- The `w` lowest bits of a minterm. -/
def encode (n : UInt64) (w : Nat) : BitVector :=
  ⟨descending n.toNat.testBit w⟩

/-- The minterm which a vector denotes; the variables from 64 up are ignored. -/
def decode (v : BitVector) : UInt64 :=
  UInt64.ofNat (valueOfBits v.bits)

namespace BitVector

/-- Number of positions. -/
def width (v : BitVector) : Nat :=
  v.bits.length

/-- The bit at a position, clear beyond the width. -/
def get (v : BitVector) (pos : Nat) : Bool :=
  v.bits.getD pos false

/-- The variable at a position of the vector. -/
def variableAt (v : BitVector) (pos : Nat) : Nat :=
  v.width - 1 - pos

/-- Number of set bits. -/
def countOnes (v : BitVector) : Nat :=
  v.bits.count true

/-- The positions where two vectors of one width differ. -/
def xor (a b : BitVector) : BitVector :=
  ⟨List.zipWith Bool.xor a.bits b.bits⟩

/-- The bit which a character stands for. -/
def symbol? : Char → Option Bool
  | '0' => some false
  | '1' => some true
  | _ => none

/-- Reads a vector of `0` and `1`. -/
def parse (text : String) : Except TextError BitVector :=
  (Text.readPattern symbol? text).map .mk

/-- The bits as a text of `0` and `1`. -/
def text (v : BitVector) : String :=
  String.ofList (v.bits.map fun b => if b then '1' else '0')

@[simp] theorem width_encode (n : UInt64) (w : Nat) : (encode n w).width = w :=
  length_descending _ w

end BitVector

end TwoLevel
