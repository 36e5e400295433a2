import QubitAllocation.Command.Arguments

/-!
# Commands

The command that a list of arguments asks for. Switches before the name of a command are those of
every command and the one for the version. A command takes no arguments besides its switches;
`help` takes the name of a command instead.
-/

namespace QubitAllocation

/-- What `allocate` is told. -/
structure AllocateArgs where
  arch : String
  input : String
  allocator : Option String
  mapping : Option String
  swapCost : Option Nat
  revCost : Option Nat
  lcxCost : Option Nat
  config : Option String
  format : String
  noVerify : Bool
  deriving DecidableEq, Repr

/-- What is to be done. -/
inductive Command where
  | allocate (args : AllocateArgs)
  | swaps (arch source target : String)
  | archs (device : Option String)
  | version
  deriving DecidableEq, Repr

/-- The names of the commands. -/
inductive CommandName where
  | allocate
  | swaps
  | archs
  | version
  deriving DecidableEq, Repr

namespace CommandName

/-- The command with a name. -/
def ofString? : String → Option CommandName
  | "allocate" => some allocate
  | "swaps" => some swaps
  | "archs" => some archs
  | "version" => some version
  | _ => none

/-- Switches that every command has. -/
def common : List Switch :=
  [⟨"verbose", some 'v', .counter⟩, ⟨"help", some 'h', .halt .help⟩]

/-- The switches before a command. -/
def leading : List Switch := common ++ [⟨"version", some 'V', .halt .version⟩]

/-- The switches of a command. -/
def switches : CommandName → List Switch
  | allocate =>
    common ++
      [⟨"arch", some 'a', .value⟩, ⟨"input", some 'i', .value⟩, ⟨"allocator", none, .value⟩,
        ⟨"mapping", none, .value⟩, ⟨"swap-cost", none, .number⟩, ⟨"rev-cost", none, .number⟩,
        ⟨"lcx-cost", none, .number⟩, ⟨"config", some 'c', .value⟩, ⟨"format", some 'f', .value⟩,
        ⟨"no-verify", none, .flag⟩]
  | swaps =>
    common ++ [⟨"arch", some 'a', .value⟩, ⟨"from", none, .value⟩, ⟨"to", none, .value⟩]
  | archs => common ++ [⟨"show", none, .value⟩]
  | version => common

end CommandName

namespace Command

/-- How far the arguments have been read: the command, its switches, whether `--` was met, and once
`help` was met the arguments after it. -/
structure State where
  name : Option CommandName
  progress : Progress
  literal : Bool
  topics : Option (List String)
  deriving DecidableEq, Repr

/-- Nothing has been read. -/
def State.start : State := ⟨none, ⟨[], none⟩, false, none⟩

/-- What becomes of a call for help, on everything or on one command. -/
def helpOn : List String → Halt
  | [] => .help
  | [topic] => if topic = "help" || (CommandName.ofString? topic).isSome then .help else .usage
  | _ => .usage

/-- The switches that can be given at this point. -/
def State.switches (s : State) : List Switch :=
  match s.name with
  | some name => name.switches
  | none => CommandName.leading

/-- Read an argument that is neither a switch nor a value. -/
def State.readName (s : State) (arg : String) : Except Halt State :=
  match s.name with
  | some _ => .error .usage
  | none =>
    match CommandName.ofString? arg with
    | some name => .ok { s with name := some name }
    | none => if arg = "help" then .ok { s with topics := some [] } else .error .usage

/-- Read one argument. -/
def State.read (s : State) (arg : String) : Except Halt State :=
  let cs := arg.toList
  let given := s.progress.given
  match s.topics, s.progress.pending with
  | some topics, _ => .ok { s with topics := some (topics ++ [arg]) }
  | none, some switch =>
    if Progress.isSwitch cs then .error .usage
    else do
      let given ← given.enter switch arg
      return { s with progress := ⟨given, none⟩ }
  | none, none =>
    if s.literal then .error .usage
    else if arg = "--" then .ok { s with literal := true }
    else if Progress.isSwitch cs then do
      let progress ← Progress.readSwitch s.switches given cs
      return { s with progress }
    else s.readName arg

/-- A switch that must be given. -/
def required (given : Given) (name : String) : Except Halt String :=
  match given.value? name with
  | some value => .ok value
  | none => .error .usage

/-- The command with the switches given. The environment names the configuration if no switch
does. -/
def ofGiven (env : String → Option String) (given : Given) : CommandName → Except Halt Command
  | .allocate => do
    let arch ← required given "arch"
    let input ← required given "input"
    return .allocate
      { arch, input
        allocator := given.value? "allocator"
        mapping := given.value? "mapping"
        swapCost := given.number? "swap-cost"
        revCost := given.number? "rev-cost"
        lcxCost := given.number? "lcx-cost"
        config := (given.value? "config").or (env "QALLOC_CONFIG")
        format := (given.value? "format").getD "table"
        noVerify := given.has "no-verify" }
  | .swaps => do
    let arch ← required given "arch"
    let source ← required given "from"
    let target ← required given "to"
    return .swaps arch source target
  | .archs => .ok (.archs (given.value? "show"))
  | .version => .ok .version

/-- The command that arguments ask for. -/
def ofArguments (env : String → Option String) (args : List String) : Except Halt Command := do
  let s ← args.foldlM State.read State.start
  match s.topics, s.name, s.progress.pending with
  | some topics, _, _ => .error (helpOn topics)
  | none, some name, none => ofGiven env s.progress.given name
  | none, _, _ => .error .usage

/-- The files that a command may read. -/
def paths : Command → List String
  | allocate args => args.config.toList ++ [args.arch, args.input]
  | swaps arch _ _ => [arch]
  | archs device => device.toList
  | version => []

end Command

end QubitAllocation
