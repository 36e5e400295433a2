import QubitAllocation.Command.Run

/-!
# The program

Reads the files and variables that the arguments name, runs the command, and prints its outcome.
-/

namespace QubitAllocation

/-- The variables that the program looks at. -/
def variableNames : List String :=
  ["QALLOC_CONFIG", "QALLOC_SWAP_COST", "QALLOC_REV_COST", "QALLOC_LCX_COST", "QALLOC_ALLOCATOR"]

/-- Read what a path names. -/
def readEntry (path : String) : IO Entry := do
  try
    return .file (← IO.FS.readFile path)
  catch e =>
    match e with
    | .noFileOrDirectory .. => return .missing
    | .inappropriateType .. => return .directory
    | e => return .unreadable (toString e)

/-- Read a variable, with its name. -/
def readVariable (name : String) : IO (Option (String × String)) := do
  return (← IO.getEnv name).map fun value => (name, value)

/-- Run the program on the files and variables of its process. -/
def runProcess (args : List String) : IO Outcome := do
  let known ← variableNames.filterMapM readVariable
  let env := fun name => known.lookup name
  match Command.ofArguments env args with
  | .error halt => return halt.outcome
  | .ok command =>
    let entries ← command.paths.mapM fun path => do return (path, ← readEntry path)
    return command.run ⟨fun path => (entries.lookup path).getD .missing, env⟩

end QubitAllocation

/-- Run the program and print its outcome. -/
def main (args : List String) : IO UInt32 := do
  let outcome ← QubitAllocation.runProcess args
  IO.print outcome.out
  IO.eprint outcome.err
  return outcome.status.toUInt32
