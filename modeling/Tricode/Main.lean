import Tricode.Command

/-!
# The program

Reads what the arguments ask for, and leaves the rest to `Tricode.Command`.
-/

namespace Tricode.Command

/-- The bytes of a file, or why they cannot be had. A directory can be opened and then not read, and
only an error on opening carries the name. -/
def readFile (name : String) : IO (Except ReadError Text.Bytes) := do
  try
    let bytes ← IO.FS.readBinFile name
    pure (.ok bytes.toList)
  catch
    | .inappropriateType none .. => pure (.error .isADirectory)
    | .inappropriateType (some _) .. => pure (.error .notADirectory)
    | .invalidArgument .. => pure (.error .nameTooLong)
    | _ => pure (.error .notFound)

/-- The bytes of the standard input. -/
def readStdin : IO Text.Bytes := do
  let stdin ← IO.getStdin
  let bytes ← stdin.readBinToEnd
  pure bytes.toList

/-- Writes a report; gives its exit code. -/
def finish (r : Report) : IO UInt32 := do
  let stdout ← IO.getStdout
  let stderr ← IO.getStderr
  stderr.putStr r.stderr
  stdout.putStr r.stdout
  pure r.exit.toUInt32

/-- Runs the command on the files of the machine. -/
def execute (arguments : List String) : IO UInt32 := do
  match ← runWith readFile readStdin arguments with
  | .ok report => finish report
  | .error _ => throw (IO.userError "embedded null byte")

end Tricode.Command

/-- The entry of the program. -/
def main (arguments : List String) : IO UInt32 :=
  Tricode.Command.execute arguments
