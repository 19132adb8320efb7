import Formula.CommandLine.Basic

/-!
# The program

The file that the arguments name is read before the call is run.
-/

namespace Formula.CommandLine

def readBytes (path : String) : IO (Option ByteArray) := do
  try
    return some (← IO.FS.readBinFile path)
  catch _ => return none

def Outcome.perform (o : Outcome) : IO UInt32 := do
  IO.print o.output
  IO.eprint o.errors
  return o.exitCode

end Formula.CommandLine

def main (args : List String) : IO UInt32 := do
  let bytes ← match Formula.CommandLine.path? args with
    | some path => Formula.CommandLine.readBytes path
    | none => pure none
  (Formula.CommandLine.run (fun _ => bytes) args).perform
