import QubitAllocation.Text.Number

/-!
# Command-line arguments

Arguments are read from left to right and the first that cannot be taken stops the reading. A
switch is given by its long name or its letter. Letters may be joined, as in `-va qx2`; a value
follows as the next argument, after `=`, or right after its letter. An argument that starts with
`-` is no value, `-` itself apart, and after `--` nothing is a switch. Every switch is given at
most once unless it counts.
-/

namespace QubitAllocation

/-- Why no command is run. -/
inductive Halt where
  | help
  | version
  | usage
  deriving DecidableEq, Repr

/-- What a switch takes or does. -/
inductive SwitchKind where
  | flag
  | counter
  | value
  | number
  | halt (reason : Halt)
  deriving DecidableEq, Repr

/-- A switch with its long name and, perhaps, its letter. -/
structure Switch where
  name : String
  letter : Option Char
  kind : SwitchKind
  deriving DecidableEq, Repr

namespace Switch

/-- The switch is followed by a value. -/
def takesValue (s : Switch) : Bool := s.kind = .value || s.kind = .number

/-- The text can be the value of a switch: a number has an optional sign and fits 32 bits, and is
not below zero. -/
def accepts (s : Switch) (value : String) : Bool :=
  if s.kind = .number then
    match value.toList with
    | '-' :: digits => !digits.isEmpty && digits.all (· == '0')
    | digits => (Text.readWord? digits).isSome
  else true

end Switch

/-- The switches given so far, with their values. -/
abbrev Given := List (String × String)

namespace Given

/-- The value of a switch. -/
def value? (given : Given) (name : String) : Option String := given.lookup name

/-- The number given with a switch; a minus sign is only accepted before zero. -/
def number? (given : Given) (name : String) : Option Nat :=
  (given.value? name).map fun value => (Text.readWord? value.toList).getD 0

/-- The switch was given. -/
def has (given : Given) (name : String) : Bool := (given.value? name).isSome

/-- Record a switch. -/
def enter (given : Given) (s : Switch) (value : String) : Except Halt Given :=
  if given.has s.name && s.kind != .counter then .error .usage
  else if s.accepts value then .ok (given ++ [(s.name, value)])
  else .error .usage

/-- Record a switch that takes no value, or stop where it says so. -/
def turnOn (given : Given) (s : Switch) : Except Halt Given :=
  match s.kind with
  | .halt reason => .error reason
  | _ => given.enter s ""

end Given

/-- How far switches have been read: what is given, and the switch that waits for its value. -/
structure Progress where
  given : Given
  pending : Option Switch
  deriving DecidableEq, Repr

namespace Progress

/-- Read a switch by its long name. -/
def readLong (switches : List Switch) (given : Given) (cs : List Char) : Except Halt Progress :=
  let name := cs.takeWhile (· != '=')
  match switches.find? fun s => s.name.toList == name, cs.drop name.length with
  | none, _ => .error .usage
  | some s, [] => do
    if s.takesValue then return ⟨given, some s⟩
    let given ← given.turnOn s
    return ⟨given, none⟩
  | some s, _ :: value => do
    if !s.takesValue then .error .usage
    let given ← given.enter s (String.ofList value)
    return ⟨given, none⟩

/-- Drop one sign that separates a letter from its value. -/
def dropEquals : List Char → List Char
  | '=' :: cs => cs
  | cs => cs

/-- Read joined letters. -/
def readLetters (switches : List Switch) (given : Given) : List Char → Except Halt Progress
  | [] => .ok ⟨given, none⟩
  | c :: cs =>
    match switches.find? fun s => s.letter == some c with
    | none => .error .usage
    | some s =>
      if s.takesValue then
        if cs.isEmpty then .ok ⟨given, some s⟩
        else do
          let given ← given.enter s (String.ofList (dropEquals cs))
          return ⟨given, none⟩
      else do
        let given ← given.turnOn s
        readLetters switches given cs

/-- The argument has the form of a switch. -/
def isSwitch (arg : List Char) : Bool := arg.head? == some '-' && arg != ['-']

/-- Read an argument that has the form of a switch. -/
def readSwitch (switches : List Switch) (given : Given) : List Char → Except Halt Progress
  | '-' :: '-' :: name => readLong switches given name
  | cs => readLetters switches given (cs.drop 1)

end Progress

end QubitAllocation
