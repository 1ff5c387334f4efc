/-
  Lists of minterms as users type them: decimal numbers with commas, semicolons, spaces or tabs
  between and around them, at least one number, and no other character. The numbers are the
  maximal runs of digits, and each has to be below `2 ^ 63`.
-/
import TwoLevel.Error
import TwoLevel.Text.Blank
import TwoLevel.Text.Decimal

namespace TwoLevel.MintermList

/-- The characters which may stand between and around the numbers. -/
def isSeparator (c : Char) : Bool :=
  c == ',' || c == ';' || c == ' ' || c == '\t'

/-- The text holds digits and separators only, and a digit. -/
def isList (cs : List Char) : Bool :=
  (cs.all fun c => c.isDigit || isSeparator c) && cs.any Char.isDigit

/-- The maximal runs of digits, in their order. -/
def runs (cs : List Char) : List (List Char) :=
  (cs.splitOnP fun c => !c.isDigit).filter fun run => !run.isEmpty

/-- The least number which is too large, `2 ^ 63`. -/
def limit : Nat :=
  9223372036854775808

/-- The number which a run of digits denotes. The error quotes the digits as they stand. -/
def readRun (run : List Char) : Except TextError Int64 :=
  if Text.value run < limit then .ok (Int64.ofNat (Text.value run))
  else .error (.overflow (String.ofList run))

/-- Reads a list of characters, see `parse`. -/
def read (cs : List Char) : Except TextError (List Int64) :=
  if isList cs then (runs cs).mapM readRun
  else .error (.mintermList (String.ofList (Text.trim cs)))

/-- Reads a list of minterms. A text which is no list is quoted without the blanks around it; of
    several numbers which are too large the first one is reported. -/
def parse (text : String) : Except TextError (List Int64) :=
  read text.toList

end TwoLevel.MintermList
