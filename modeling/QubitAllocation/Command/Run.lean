import QubitAllocation.Command.Basic
import QubitAllocation.Command.Files
import QubitAllocation.Command.Outcome
import QubitAllocation.Config.Yaml
import QubitAllocation.Dependency.Reader
import QubitAllocation.Device.Catalog
import QubitAllocation.Device.Reader
import QubitAllocation.Json.Report
import QubitAllocation.Text.LowerCase

/-!
# Running commands

Each command reads what it needs from its surroundings and gives an outcome. Checks are made in the
order in which they are listed here: format, configuration, device, input.
-/

namespace QubitAllocation

open Text (listing)

/-- Lines, each with its end. -/
def linesText (lines : List String) : String := String.join (lines.map fun line => line ++ "\n")

/-- A text pushed to the right of a column. -/
def padded (width : Nat) (s : String) : String :=
  String.ofList (List.leftpad width ' ' s.toList)

/-- The device that a text names: a file if there is one, and otherwise a built-in device. -/
def Surroundings.device (w : Surroundings) (spec : String) : Except Failure Device :=
  match w.entry spec with
  | .file text =>
    deviceOutcome s!"Failed to load architecture file: {spec}" (Device.read text)
  | _ =>
    deviceOutcome
      (s!"'{spec}' is neither a file nor a built-in architecture (" ++
        String.intercalate ", " Device.builtinNames ++ ")")
      (Device.named spec)

/-- What is to be allocated. -/
inductive Workload where
  | program (p : Program)
  | dependencies (deps : Dependencies)

/-- The program or the dependency list of a file, by its extension. -/
def Surroundings.workload (w : Surroundings) (path : String) : Except Failure Workload :=
  let entry := w.entry path
  if !entry.isPresent then .error (.told [s!"File not found: {path}"])
  else
    match entry.read with
    | .error reason => .error (.told [s!"Failed to read file: {path}", reason])
    | .ok text =>
      if Text.lowerCase ((extension? path).getD "") = "json" then
        ((Program.readJson text).map Workload.program).mapError fun e =>
          (Failure.ofAlloc e).within s!"Invalid program: {path}"
      else
        ((Dependencies.read text).map Workload.dependencies).mapError fun e =>
          (Failure.ofAlloc e).within s!"Invalid dependency list: {path}"

/-- The configuration of a file. -/
def Surroundings.configFile (w : Surroundings) (path : String) : Except Failure Config :=
  let read : Except AllocError Config :=
    match (w.entry path).read with
    | .error reason => .error (.config (.unreadable path reason))
    | .ok text => Config.readYaml text
  read.mapError fun e => (Failure.ofAlloc e).within s!"Failed to load configuration: {path}"

namespace AllocateArgs

/-- A configuration changed by the switches. -/
def override (args : AllocateArgs) (c : Config) : Except AllocError Config := do
  let allocator ← match args.allocator with
    | some name => AllocatorKind.read name
    | none => .ok c.allocator
  let placement ← match args.mapping with
    | some name => Placement.read name
    | none => .ok c.placement
  let costs : CostModel :=
    ⟨args.swapCost.getD c.costs.swap, args.revCost.getD c.costs.reverse,
      args.lcxCost.getD c.costs.longCnot⟩
  return ⟨allocator, costs, placement, c.verify && !args.noVerify⟩

/-- The configuration: that of the file, changed by the environment and then by the switches. -/
def resolve (args : AllocateArgs) (w : Surroundings) : Except Failure Config := do
  let base ← match args.config with
    | some path => w.configFile path
    | none => .ok Config.standard
  let (result, c) := base.applyEnv w.env
  allocOutcome result
  let c ← allocOutcome (args.override c)
  allocOutcome c.validate
  return c

/-- Whether JSON is printed instead of a table. -/
def wantsJson (args : AllocateArgs) : Except Failure Bool :=
  match Text.lowerCase args.format with
  | "json" => .ok true
  | "table" => .ok false
  | other => .error (.told [s!"Unknown format: '{other}'. Available: table, json"])

end AllocateArgs

/-- The row of a step in the table. -/
def Step.row (s : Step) : String :=
  "  " ++ padded 6 (toString s.callPoint) ++ "  " ++
    String.intercalate "  " (s.ops.map Operation.text)

/-- The table of an allocation. -/
def Allocation.table (a : Allocation) : String :=
  let s := a.solution
  linesText <|
    ["✓ Allocation complete", "  Initial mapping: " ++ listing s.initial,
        s!"  Cost: {s.cost} ({s.numSwaps} swaps, {s.numOps} gates)"] ++
      (a.verifiedCost.map fun cost => s!"  Verified: replay cost {cost}").toList ++
      (a.stats.map fun stats =>
        s!"  Swap chains: {stats.chains} (mean size " ++ stats.mean.fixed 2 ++
          s!", swap cost {stats.totalSwapCost})").toList ++
      ["", "  " ++ padded 6 "Call" ++ "  Operations"] ++ s.steps.map Step.row ++
      (match a.schedule with
        | some order =>
          ["", "  Schedule: " ++ String.intercalate " " (order.map fun c => toString c)]
        | none => [])

/-- An allocation that is ready to start. -/
structure Job where
  json : Bool
  config : Config
  device : Device
  workload : Workload

/-- Read everything that an allocation needs. -/
def AllocateArgs.prepare (args : AllocateArgs) (w : Surroundings) : Except Failure Job := do
  let json ← args.wantsJson
  let config ← args.resolve w
  let device ← w.device args.arch
  let workload ← w.workload args.input
  return { json, config, device, workload }

/-- Allocate what a job has to do. -/
def Job.allocate (job : Job) : Except AllocError Allocation := do
  let allocator ← Allocator.build job.config none
  match job.workload with
  | .program p => allocator.allocateProgram job.device p
  | .dependencies deps => allocator.allocate job.device deps

/-- The text of a job's allocation. -/
def Job.text (job : Job) (a : Allocation) : String :=
  if job.json then a.toJson.pretty ++ "\n" else a.table

/-- Run `allocate`. -/
def runAllocate (w : Surroundings) (args : AllocateArgs) : Outcome :=
  match args.prepare w with
  | .error failure => .ofResult "" (.error failure)
  | .ok job =>
    let header :=
      if job.json then ""
      else
        linesText
          [s!"→ Allocating {args.input} on {args.arch} " ++
            s!"({job.device.size} qubits, {job.device.edges.length} edges) " ++
            s!"with {job.config.allocator.name}"]
    .ofResult header ((allocOutcome job.allocate).map job.text)

/-- An arrangement written as numbers between commas. -/
def readPlacement (list : String) : Except Failure (List Nat) :=
  let fields := (Text.fieldsBy (· == ',') list.toList).map Text.trim
  (fields.filter fun field => !field.isEmpty).mapM fun field =>
    (Text.readWord field).mapError fun fault =>
      .told ["Invalid qubit index '" ++ String.ofList field ++ s!"' in '{list}'", fault.message]

/-- The rows of swaps, each with the arrangement after it; rows are numbered from `number`. -/
def swapRows (number : Nat) (tokens : List Nat) : List (Nat × Nat) → List String
  | [] => []
  | (u, v) :: swaps =>
    let tokens := Arrangement.exchange tokens u v
    ("  " ++ padded 3 (toString number) ++ s!". swap({u}, {v})  " ++ listing tokens) ::
      swapRows (number + 1) tokens swaps

/-- The swaps that lead from one arrangement to another. -/
def swapReport (arch : String) (d : Device) (source target : List Nat) :
    Except Failure String := do
  let table ← deviceOutcome s!"Cannot preprocess '{arch}' for exact token swapping"
    (SwapTable.build d)
  let swaps ← (table.find source target).mapError Failure.ofDevice
  return linesText
    ((s!"✓ {swaps.length} swaps: " ++ listing source ++ " -> " ++ listing target) ::
      swapRows 1 source swaps)

/-- Run `swaps`. -/
def runSwaps (w : Surroundings) (arch source target : String) : Outcome :=
  let prepared : Except Failure (Device × List Nat × List Nat) := do
    let d ← w.device arch
    let source ← readPlacement source
    let target ← readPlacement target
    return (d, source, target)
  match prepared with
  | .error failure => .ofResult "" (.error failure)
  | .ok (d, source, target) =>
    .ofResult (linesText [s!"→ Token swapping on {arch} ({d.size} qubits)"])
      (swapReport arch d source target)

/-- The description of a built-in device. -/
def deviceLines (name : String) (d : Device) : List String :=
  ["  ● " ++ name, s!"    Qubits: {d.size}",
    "    Edges:  " ++ String.intercalate ", " (d.edges.map fun e => s!"{e.1}->{e.2}"), ""]

/-- The built-in devices and families. -/
def deviceList : String :=
  let families := Device.builtinNames.filter fun name => name.toList.contains '<'
  linesText <|
    ["qalloc Built-in architectures:", ""] ++ deviceLines "ibmqx2" Device.ibmqx2 ++
      deviceLines "ibmqx4" Device.ibmqx4 ++
      ["  Sized families: " ++ String.intercalate ", " families,
        "  Example: qalloc archs --show ring6"]

/-- Run `archs`. -/
def runArchs (w : Surroundings) : Option String → Outcome
  | none => .ofResult "" (.ok deviceList)
  | some spec => .ofResult "" ((w.device spec).map Device.toDot)

/-- The version of the program. -/
def versionNumber : String := "0.4.0"

/-- What `version` prints. -/
def versionText : String :=
  linesText
    [s!"qalloc v{versionNumber} - qubit allocation for constrained devices", "", "Components:",
      "  qalloc-arch     Device graphs, shortest paths and token swapping",
      "  qalloc-compile  Allocation strategies and replay verification",
      "  qalloc-cli      Command-line interface", "", "License:    Apache-2.0"]

/-- How the program is called. -/
def usageText : String :=
  linesText
    ["Usage: qalloc [-v] <command>", "", "Commands:",
      "  allocate  Allocate a program or dependency list onto a device",
      "  swaps     Compute a minimum swap sequence between two placements",
      "  archs     List built-in architectures", "  version   Show version information"]

/-- Run a command. -/
def Command.run (w : Surroundings) : Command → Outcome
  | .allocate args => runAllocate w args
  | .swaps arch source target => runSwaps w arch source target
  | .archs device => runArchs w device
  | .version => .ofResult "" (.ok versionText)

/-- The outcome when no command is run. -/
def Halt.outcome : Halt → Outcome
  | .help => ⟨0, usageText, ""⟩
  | .version => ⟨0, s!"qalloc {versionNumber}\n", ""⟩
  | .usage => ⟨2, "", usageText⟩

/-- Run the program with arguments. -/
def run (w : Surroundings) (args : List String) : Outcome :=
  match Command.ofArguments w.env args with
  | .ok command => command.run w
  | .error halt => halt.outcome

end QubitAllocation
