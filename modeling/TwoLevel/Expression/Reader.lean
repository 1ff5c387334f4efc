/-
  Reading the canonical text of an expression. The text `0` is the empty sum. Any other text is
  split at `+`; each piece is `1` or a sequence of literals: `x`, an index below 64 without
  leading zeros, and a backquote on a negative literal. Blanks are ignored around the text and
  around the pieces.

  The width is given, or else the least one with all variables named, and at least 1.
-/
import TwoLevel.Error
import TwoLevel.Expression
import TwoLevel.Text.Blank

namespace TwoLevel

/-- Number of variables of a minterm. -/
def variableLimit : Nat :=
  64

/-- Reads what follows the `x` of a literal. -/
def readLiteral (cs : List Char) : Option Literal :=
  let index := cs.takeWhile Char.isDigit
  if Text.isCanonical index && decide (Text.value index < variableLimit) then
    match cs.dropWhile Char.isDigit with
    | [] => some ⟨Text.value index, true⟩
    | ['\x60'] => some ⟨Text.value index, false⟩
    | _ => none
  else none

/-- Reads a non-empty sequence of literals. -/
def readLiterals (cs : List Char) : Option (List Literal) :=
  match cs.splitOn 'x' with
  | [] :: piece :: pieces => (piece :: pieces).mapM readLiteral
  | _ => none

/-- Reads a piece, which stands for a product of literals. The error quotes it. -/
def readTerm (cs : List Char) : Except TextError (List Literal) :=
  if cs = ['1'] then .ok []
  else
    match readLiterals cs with
    | some lits => .ok lits
    | none => .error (.term (String.ofList cs))

/-- Reads a sum of products. The error is that of the first piece which cannot be read. -/
def readTerms (cs : List Char) : Except TextError (List (List Literal)) :=
  let body := Text.trim cs
  if body = ['0'] then .ok []
  else ((body.splitOn '+').map Text.trim).mapM readTerm

namespace Expression

/-- The sum of the products of some lists of literals. -/
def ofLiterals (w : Nat) (terms : List (List Literal)) : Expression :=
  .ofTerms w (terms.map (Cube.ofLiterals w))

/-- The least width, and at least 1, in which all literals name a variable. -/
def widthOf (terms : List (List Literal)) : Nat :=
  (terms.flatten.map (·.index + 1)).max?.getD 1

/-- Reads an expression in the least width which holds it. -/
def parse (text : String) : Except TextError Expression := do
  let terms ← readTerms text.toList
  return .ofLiterals (widthOf terms) terms

/-- Reads an expression in a given width. A variable outside of it is an error, which quotes the
    first such literal. -/
def parseWithWidth (text : String) (w : Nat) : Except TextError Expression := do
  let terms ← readTerms text.toList
  match terms.flatten.find? fun l => decide (w ≤ l.index) with
  | some l => throw (.term l.text)
  | none => return .ofLiterals w terms

end Expression

end TwoLevel
