import MemberAccess.CommandLine.Run

/-!
# The program

Reads the files that the arguments name, runs, and writes what the run shows.
-/

section

open MemberAccess MemberAccess.CommandLine

/-- The contents of the file under each argument that names one. -/
def readFiles (arguments : List String) : IO (List (Text × List UInt8)) :=
  arguments.filterMapM fun name : String => do
    try
      let contents ← IO.FS.readBinFile name
      return some (Text.ofString name, contents.toList)
    catch _ =>
      return none

def main (arguments : List String) : IO UInt32 := do
  let contents ← readFiles arguments
  let files : Files := fun name => (contents.find? (·.1 = name)).map (·.2)
  let outcome := run files (arguments.map Text.ofString)
  IO.print outcome.output.toString
  IO.eprint outcome.errors.toString
  return UInt32.ofNat outcome.status

end
