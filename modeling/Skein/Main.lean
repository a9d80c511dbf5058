import Skein.CommandLine

/-!
# The program
-/

open Skein

/-- The text of a file, or why it cannot be read. -/
def readSource (path : String) : IO (Except CommandLine.Unreadable String) := do
  try
    match String.fromUTF8? (← IO.FS.readBinFile path) with
    | some source => return .ok source
    | none => return .error .notText
  catch
    | .noFileOrDirectory .. => return .error .missing
    | .inappropriateType .. => return .error .directory
    | e => return .error (.other (toString e))

/-- Run the program on the files and the input that it is given. -/
def main (args : List String) : IO UInt32 := do
  let path? := match CommandLine.Options.ofArgs .default args with
    | .ok o => o.file
    | .error _ => none
  let stdin ← match path? with
    | none => (← IO.getStdin).readToEnd
    | some _ => pure ""
  let source ← readSource (path?.getD "")
  let result := CommandLine.run ampleFuel args stdin fun _ => source
  IO.print result.stdout
  IO.eprint result.stderr
  return result.code.toUInt32
