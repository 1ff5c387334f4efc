/-
  Problem files. A problem file has two lines which are not blank: the ON-set and the OFF-set,
  each a list of minterms.
-/
import TwoLevel.MintermList
import TwoLevel.Text.Lines

namespace TwoLevel.ProblemFile

/-- The lines which hold more than blanks. -/
def contentLines (cs : List Char) : List (List Char) :=
  (Text.lines cs).filter fun line => !line.all Text.isBlank

/-- Reads the ON-set and the OFF-set; if neither can be read, the ON-set is reported. -/
def parse (text : String) : Except TextError (List Int64 × List Int64) :=
  match contentLines text.toList with
  | [on, off] => do
    let on ← MintermList.read on
    let off ← MintermList.read off
    return (on, off)
  | other => .error (.lineCount other.length)

/-- Reads the bytes of a file, which have to be valid UTF-8, unless there is a cause for which
    they cannot be had. -/
def read (bytes : Except String ByteArray) : Except Error (List Int64 × List Int64) :=
  match bytes with
  | .error cause => .error (.io cause)
  | .ok bytes =>
    match String.fromUTF8? bytes with
    | some text => (parse text).mapError .text
    | none => .error (.io "stream did not contain valid UTF-8")

end TwoLevel.ProblemFile
