/-
  What a run of the command line does. The files are given by what can be read and which paths
  can be written; the report says what is printed and saved, and what went wrong.

  Left out are the time of the search, which a run that prints results adds as one more line
  (`Elapsed: ...`) to the standard error output, the log, and the diagnostics for arguments which
  make no request. These are the words of the argument reader; a failure keeps the arguments.
-/
import TwoLevel.CommandLine.Options
import TwoLevel.ProblemFile

namespace TwoLevel.CommandLine

/-- The files which a run may use. -/
structure Files where
  /-- The bytes of a file, or the cause for which it cannot be read. -/
  bytes : String → Except String ByteArray
  /-- A file can be written under this path, or the cause for which it cannot. -/
  write : String → Except String Unit

/-- The reasons for which a run fails. -/
inductive Failure where
  | usage (args : List String)
  | problem (reason : Error)
  | unsaved (path : String) (reason : Error)
  deriving DecidableEq

/-- The outcome of a run. -/
structure Report where
  stdout : String
  /-- The content written under the path given by `--save`. -/
  saved : Option String
  failure : Option Failure
  deriving DecidableEq

namespace Failure

/-- A defect of the search and arguments which make no request are told apart from the rest. -/
def exitCode : Failure → Nat
  | usage _ => 2
  | problem reason => if reason.isInternal then 2 else 1
  | unsaved _ _ => 1

/-- What the standard error output says, unless the arguments are at fault. -/
def message? : Failure → Option String
  | usage _ => none
  | problem reason => some ("Error: " ++ reason.message)
  | unsaved path reason =>
    some ("Error writing output file '" ++ path ++ "': " ++ reason.message)

end Failure

def Report.exitCode (r : Report) : Nat :=
  match r.failure with
  | some failure => failure.exitCode
  | none => 0

/-- The ON-set and the OFF-set. -/
def Source.load (bytes : String → Except String ByteArray) :
    Source → Except Error (List Int64 × List Int64)
  | lists on off => do
    let on ← (MintermList.parse on).mapError .text
    let off ← (MintermList.parse off).mapError .text
    return (on, off)
  | file path => ProblemFile.read (bytes path)

/-- The results of a request, one line for each. -/
def Options.solve (o : Options) (bytes : String → Except String ByteArray) :
    Except Error (List String) := do
  let (on, off) ← o.source.load bytes
  let found ← if o.all then minimizeAll on off else (minimize o.method on off).map ([·])
  return found.map (·.write o.style)

/-- Carries out a request: the results are printed, then saved. -/
def Options.report (o : Options) (files : Files) : Report :=
  match o.solve files.bytes with
  | .error reason => ⟨"", none, some (.problem reason)⟩
  | .ok results =>
    let content := Text.ofLines results
    match o.save with
    | none => ⟨content, none, none⟩
    | some path =>
      match files.write path with
      | .ok () => ⟨content, some content, none⟩
      | .error cause => ⟨content, none, some (.unsaved path (.io cause))⟩

/-- Runs the command line. -/
def run (files : Files) (args : List String) : Report :=
  match Options.parse args with
  | some o => o.report files
  | none => ⟨"", none, some (.usage args)⟩

end TwoLevel.CommandLine
