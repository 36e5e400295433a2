import QubitAllocation.Text.Blank

/-!
# Refusals about devices

`LineFault` lists what can be wrong with a line of a device description and `DeviceError` why a
device, a route or a swap query is refused. The wording of both is here and nowhere else.
-/

namespace QubitAllocation

/-- What is wrong with a line of a device description. -/
inductive LineFault where
  | missingHeader
  | expectedTwoNumbers (text : String)
  | expectedRegisters (count : Nat)
  | expectedRegister
  | invalidRegisterSize (text : String)
  | registersOverflow
  | registersDisagree (declared header : Nat)
  | expectedEdge
  | malformedLabel (label : String)
  | indexOutOfRange (index : Nat) (register : String)
  | unknownRegister (name : String)
  deriving DecidableEq, Repr

/-- The wording of a line fault. -/
def LineFault.message : LineFault → String
  | .missingHeader => "missing header"
  | .expectedTwoNumbers text => s!"expected two integers, got '{text}'"
  | .expectedRegisters count => s!"expected {count} register declarations"
  | .expectedRegister => "expected '<name> <size>'"
  | .invalidRegisterSize text => s!"invalid register size '{text}'"
  | .registersOverflow => "register sizes overflow"
  | .registersDisagree declared header =>
    s!"registers declare {declared} qubits, header says {header}"
  | .expectedEdge => "expected '<control> <target>'"
  | .malformedLabel label => s!"malformed qubit label '{label}'"
  | .indexOutOfRange index register => s!"index {index} out of range for register '{register}'"
  | .unknownRegister name => s!"unknown register '{name}'"

/-- Why a device, a route or a swap query is refused. `outOfRange` stands for a look-up beyond
the end of a table. -/
inductive DeviceError where
  | malformed (line : Nat) (fault : LineFault)
  | unreadable (reason : String)
  | invalidEdge (control target size : Nat)
  | selfLoop (qubit : Nat)
  | unreachable (start goal : Nat)
  | tooLarge (size limit : Nat)
  | sizeMismatch (expected got : Nat)
  | invalidPermutation (size : Nat) (values : List Nat)
  | permutationUnreachable (values : List Nat)
  | unknownDevice (name : String)
  | outOfRange
  deriving DecidableEq, Repr

/-- The wording of a device error. -/
def DeviceError.message : DeviceError → String
  | .malformed line fault => s!"Architecture parse error on line {line}: " ++ fault.message
  | .unreadable reason => s!"Failed to read architecture file: {reason}"
  | .invalidEdge control target size =>
    s!"Edge ({control}, {target}) references a qubit outside 0..{size}"
  | .selfLoop qubit => s!"Self-loop on physical qubit {qubit} is not a valid coupling"
  | .unreachable start goal => s!"No path between physical qubits {start} and {goal}"
  | .tooLarge size limit =>
    s!"Exhaustive token swapping supports at most {limit} qubits, graph has {size}"
  | .sizeMismatch expected got =>
    s!"Permutation of size {got} does not match the preprocessed size {expected}"
  | .invalidPermutation size values =>
    s!"Not a permutation of 0..{size}: " ++ Text.listing values
  | .permutationUnreachable values =>
    "Permutation " ++ Text.listing values ++ " is unreachable through swaps on this graph"
  | .unknownDevice name => s!"Unknown architecture '{name}'"
  | .outOfRange => "Index out of range"

end QubitAllocation
