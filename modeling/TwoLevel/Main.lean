/-
  The command line program. The outcome of a run is worked out by `CommandLine.Options.report`; what
  is left to do here is to read the problem file, to print, and to write the results. The causes of
  failed reads and writes are worded by the system. The search is not timed, and the arguments which
  make no request are refused without a text.
-/
import TwoLevel.CommandLine.Report

namespace TwoLevel.CommandLine

/-- The bytes of a file, or the cause for which it cannot be read. -/
def readBytes (path : String) : IO (Except String ByteArray) := do
  try
    return .ok (← IO.FS.readBinFile path)
  catch cause =>
    return .error (toString cause)

/-- Writes a file, or tells the cause for which this is not possible. -/
def writeText (path content : String) : IO (Except String Unit) := do
  try
    IO.FS.writeFile path content
    return .ok ()
  catch cause =>
    return .error (toString cause)

/-- Prints what went wrong, and gives the exit code. -/
def fail (failure : Failure) : IO UInt32 := do
  if let some text := failure.message? then
    IO.eprintln text
  return UInt32.ofNat failure.exitCode

/-- Carries out a request. -/
def perform (o : Options) : IO UInt32 := do
  let bytes ←
    match o.source with
    | .file path => readBytes path
    | .lists _ _ => pure (.ok .empty)
  let report := o.report ⟨fun _ => bytes, fun _ => .ok ()⟩
  IO.print report.stdout
  match report.failure, o.save, report.saved with
  | some failure, _, _ => fail failure
  | none, some path, some content =>
    match ← writeText path content with
    | .ok () => return 0
    | .error cause => fail (.unsaved path (.io cause))
  | none, _, _ => return 0

end TwoLevel.CommandLine

def main (args : List String) : IO UInt32 :=
  match TwoLevel.CommandLine.Options.parse args with
  | some o => TwoLevel.CommandLine.perform o
  | none => TwoLevel.CommandLine.fail (.usage args)
