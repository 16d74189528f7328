import DurativePlanning.CommandLine.Program
import DurativePlanning.Random.ChaCha

/-!
# The Program as an Executable

Gives the program the files and the clock of the machine, and prints what it answers.
-/

open DurativePlanning DurativePlanning.Storage DurativePlanning.CommandLine

namespace DurativePlanning.Machine

/-- The result of an action that may fail, with the failure as a `FileError`. -/
def attempt {β : Type} (action : IO β) : IO (Except FileError β) := do
  match ← action.toBaseIO with
  | .ok x => return .ok x
  | .error cause => return .error (.other (toString cause))

/-- The directories on the way to a file. -/
def directoryOf (path : String) : String :=
  "/".intercalate (path.splitOn "/").dropLast

/-- Writes a file and makes the directories on the way to it. -/
def writeFile (path text : String) : IO Unit := do
  let directory := directoryOf path
  if !directory.isEmpty then IO.FS.createDirAll directory
  IO.FS.writeFile path text

/-- The files and the clock of the machine. -/
def world : World IO where
  files :=
    { read := fun path => attempt (IO.FS.readFile path)
      write := fun path text => attempt (writeFile path text) }
  clock := IO.monoNanosNow

end DurativePlanning.Machine

def main (arguments : List String) : IO UInt32 := do
  let environment ← IO.getEnv "TEMPOTREE_CONFIG"
  let output ← execute ChaCha.Stream DurativePlanning.Machine.world environment arguments
  IO.print output.out
  match output.err with
  | some message => IO.eprintln message
  | none => pure ()
  return UInt32.ofNat output.code
