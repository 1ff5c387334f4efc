/-
  The styles in which a sum of products is written. A style is a table of symbols; the rules are
  the same for all of them: literals joined by `conj` between `left` and `right`, terms joined by
  `disj`, the universal term as `truth`, the empty sum as `falsity`.
-/
import TwoLevel.Expression

namespace TwoLevel

/-- The symbols of a style. -/
structure Symbols where
  /-- Written before the index of a positive literal. -/
  positiveHead : List Char
  /-- Written before the index of a negative literal. -/
  negativeHead : List Char
  /-- Written after the index of a negative literal. -/
  negativeTail : List Char
  conj : List Char
  disj : List Char
  left : List Char
  right : List Char
  truth : List Char
  falsity : List Char

namespace Symbols

def bool (s : Symbols) : Bool → List Char
  | true => s.truth
  | false => s.falsity

def literal (s : Symbols) (l : Literal) : List Char :=
  if l.positive then s.positiveHead ++ Text.digits l.index
  else s.negativeHead ++ Text.digits l.index ++ s.negativeTail

/-- A term without literals is constantly true. -/
def term (s : Symbols) (t : Cube) : List Char :=
  if t.isUniversal then s.bool true
  else s.left ++ s.conj.intercalate (t.literals.map s.literal) ++ s.right

/-- A sum without terms is constantly false. -/
def expression (s : Symbols) (e : Expression) : List Char :=
  if e.terms.isEmpty then s.bool false
  else s.disj.intercalate (e.terms.map s.term)

end Symbols

/-- The styles which are offered. -/
inductive Style where
  | canonical
  | mathematical
  | logical
  | altLogical
  | bool
  | bitwise
  deriving DecidableEq

namespace Style

def all : List Style :=
  [canonical, mathematical, logical, altLogical, bool, bitwise]

/-- The style used unless one is named. -/
def standard : Style :=
  canonical

def name : Style → String
  | canonical => "canonical"
  | mathematical => "mathematical"
  | logical => "logical"
  | altLogical => "alt-logical"
  | bool => "bool"
  | bitwise => "bitwise"

/-- The canonical style marks a negation by a trailing backquote, the mathematical one by a bar
    over the variable; the logical ones put terms in brackets; the last two use the operators of
    programming languages. -/
def symbols : Style → Symbols
  | canonical => ⟨['x'], ['x'], ['\x60'], [], [' ', '+', ' '], [], [], ['1'], ['0']⟩
  | mathematical => ⟨['x'], ['x', '\u0304'], [], [], [' ', '+', ' '], [], [], ['1'], ['0']⟩
  | logical =>
    ⟨['x'], ['\u00ac', 'x'], [], ['\u2227'], [' ', '\u2228', ' '], ['('], [')'],
      ['\u22a4'], ['\u22a5']⟩
  | altLogical =>
    ⟨['x'], ['~', 'x'], [], ['\u2227'], [' ', '\u2228', ' '], ['('], [')'],
      ['\u22a4'], ['\u22a5']⟩
  | bool =>
    ⟨['x'], ['!', 'x'], [], ['&', '&'], [' ', '|', '|', ' '], [], [],
      ['t', 'r', 'u', 'e'], ['f', 'a', 'l', 's', 'e']⟩
  | bitwise => ⟨['x'], ['!', 'x'], [], ['&'], [' ', '|', ' '], [], [], ['1'], ['0']⟩

end Style

namespace Expression

/-- The expression in a style. -/
def write (e : Expression) (style : Style) : String :=
  String.ofList (style.symbols.expression e)

/-- The canonical text, which `Expression.parse` reads. -/
def text (e : Expression) : String :=
  e.write .canonical

end Expression

end TwoLevel
