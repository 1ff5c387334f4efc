/-
  Vectors and cubes as texts with one symbol for each position, the most significant first.
  Spaces, tabs and single quotes only group the symbols.
-/
import TwoLevel.Error

namespace TwoLevel.Text

/-- The characters which may stand between the symbols of a pattern. -/
def isSpacing (c : Char) : Bool :=
  c == ' ' || c == '\t' || c == '\''

/-- Reads one symbol for each character which is not spacing. The error quotes the whole text. -/
def readPattern {α : Type} (symbol? : Char → Option α) (text : String) :
    Except TextError (List α) :=
  match (text.toList.filter fun c => !isSpacing c).mapM symbol? with
  | some symbols => .ok symbols
  | none => .error (.pattern text)

end TwoLevel.Text
