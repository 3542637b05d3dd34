import TreeFlow.CommandLine
/-
The program: files on a disk, variables of the environment, and the streams of the process.
-/

namespace TreeFlow

def succeeds (action : IO Unit) : IO Bool := do
  try
    action
    return true
  catch _ => return false

/-- The location of the folder that a location stands in, if it names one. -/
def folderOf (location : String) : String :=
  String.ofList (location.toList.reverse.dropWhile (· != '/')).reverse

def diskAccess : FileAccess IO where
  read location := do
    try
      return some (← IO.FS.readBinFile location).toList
    catch _ => return none
  write location text :=
    succeeds do
      let folder := folderOf location
      unless folder.isEmpty do IO.FS.createDirAll folder
      IO.FS.writeFile location text

end TreeFlow

open TreeFlow in
def main (arguments : List String) : IO UInt32 := do
  -- The machine is not asked how much it can run at once.
  let environment : CommandLine.Environment :=
    ⟨← IO.getEnv CommandLine.outputVariable, ← IO.getEnv CommandLine.maxParallelVariable, none⟩
  let ending ← CommandLine.run diskAccess environment arguments
  IO.print ending.output
  IO.eprint ending.complaint
  return ending.code
