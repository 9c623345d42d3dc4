import Chorale.CommandLine.Run
import Chorale.Failure.Message

/-!
# The program

Runs the command with the machine's files, clock and output.
-/

namespace Chorale

/-- Whether an action succeeds. -/
def succeeds (action : IO Unit) : IO Bool := do
  try
    action
    pure true
  catch _ => pure false

/-- The contents of a file, if it can be read. -/
def contents? (path : String) : IO (Option ByteArray) := do
  try
    let contents ← IO.FS.readBinFile path
    pure (some contents)
  catch _ => pure none

/-- The surroundings on a machine. -/
def machine : CommandLine.Surroundings IO where
  fetch path := contents? (String.ofList path)
  store path bytes :=
    succeeds (IO.FS.writeBinFile (String.ofList path) (ByteArray.mk bytes.toArray))
  print text := IO.print (String.ofList text)
  clockSeed := do
    let nanoseconds ← IO.monoNanosNow
    pure (UInt64.ofNat nanoseconds)

/-- Why the command ended, for whoever reads the errors. -/
def explain : CommandLine.Exit → Option Word
  | .success => none
  | .refused => some "error: the arguments are refused; try --help".toList
  | .failed action reason =>
    some ("Error: ".toList ++ action ++ "\n\nCaused by:\n    ".toList ++ reason.message)
  | .crashed fault => some ("fault: ".toList ++ fault.message)

end Chorale

/-- Runs the command. -/
def main (arguments : List String) : IO UInt32 := do
  let exit ← Chorale.CommandLine.run Chorale.machine (arguments.map String.toList)
  match Chorale.explain exit with
  | some text => IO.eprintln (String.ofList text)
  | none => pure ()
  pure (UInt32.ofNat exit.code)
