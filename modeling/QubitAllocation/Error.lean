import QubitAllocation.Device.Error
import QubitAllocation.Plan.Operation

/-!
# Refusals about allocations

The causes for which reading, allocating, replaying or configuring is refused, each with its
wording. `AllocError.outOfRange` stands for a look-up beyond the end of a table and for a circuit
with more wires than 32 bits can count.
-/

namespace QubitAllocation

/-- What is wrong with a line of a dependency list. -/
inductive DependencyFault where
  | expectedPair (line : String)
  | invalidQubit (operand : String)
  deriving DecidableEq, Repr

/-- The wording of a dependency fault. -/
def DependencyFault.message : DependencyFault → String
  | .expectedPair line => s!"expected 'cx <a> <b>' or '<a> <b>', got '{line}'"
  | .invalidQubit operand => s!"invalid qubit '{operand}'"

/-- What is wrong with a mapping. -/
inductive MappingFault where
  | wrongLength (expected found : Nat)
  | notPermutation
  deriving DecidableEq, Repr

/-- The wording of a mapping fault. -/
def MappingFault.message : MappingFault → String
  | .wrongLength expected found => s!"expected {expected} entries, found {found}"
  | .notPermutation => "not a permutation"

/-- Why a replay stops. -/
inductive ReplayFault where
  | stepCount (steps dependencies : Nat)
  | unknownCallPoint
  | qubitOutside (op : Operation) (size : Nat)
  | swapNotAdjacent (op : Operation) (u v : Nat)
  | notNative (op : Operation) (u v : Nat)
  | notReverse (op : Operation) (u v : Nat)
  | bridgeNotAdjacent (op : Operation) (u v : Nat)
  | wrongFinalGate (op : Operation) (pair : Pair)
  | noGate (pair : Pair)
  | notCovered
  deriving DecidableEq, Repr

/-- The wording of a replay fault. -/
def ReplayFault.message : ReplayFault → String
  | .stepCount steps dependencies =>
    s!"{steps} operation sequences for {dependencies} dependencies"
  | .unknownCallPoint => "unknown or repeated call point"
  | .qubitOutside op size => op.text ++ s!" names a qubit outside 0..{size}"
  | .swapNotAdjacent op u v => op.text ++ s!" on non-adjacent qubits {u} and {v}"
  | .notNative op u v => op.text ++ s!" on ({u}, {v}) is not a native edge"
  | .notReverse op u v => op.text ++ s!" on ({u}, {v}) is not a reverse edge"
  | .bridgeNotAdjacent op u v => op.text ++ s!" bridge is not adjacent to ({u}, {v})"
  | .wrongFinalGate op pair => "final gate " ++ op.text ++ " does not realize " ++ pair.text
  | .noGate pair => "no gate for " ++ pair.text
  | .notCovered => "dependency not covered"

/-- What is wrong with a configuration. -/
inductive ConfigFault where
  | classicalBit (statement : String) (bit count : Nat)
  | zeroSwapCost
  | invalidCost (key raw : String)
  | unknownAllocator (name : String)
  | unknownFinder (name : String)
  | unreadable (path reason : String)
  | yaml
  deriving DecidableEq, Repr

/-- The wording of a configuration fault. -/
def ConfigFault.message : ConfigFault → String
  | .classicalBit statement bit count =>
    s!"statement '{statement}' uses classical bit {bit} of {count}"
  | .zeroSwapCost => "swap cost must be non-zero"
  | .invalidCost key raw => s!"{key}: invalid cost '{raw}'"
  | .unknownAllocator name =>
    s!"unknown allocator '{name}' (expected one of: dynprog, greedy, path-guided, direct)"
  | .unknownFinder name => s!"unknown mapping finder '{name}' (expected weighted or identity)"
  | .unreadable path reason => s!"{path}: {reason}"
  | .yaml => "yaml"

/-- Why an allocation, a replay or a description is refused. -/
inductive AllocError where
  | device (cause : DeviceError)
  | malformed (line : Nat) (fault : DependencyFault)
  | qubitOutOfRange (qubit size : Nat)
  | selfDependency (callPoint qubit : Nat)
  | multipleDependencies (callPoint count : Nat)
  | emptyDependency (callPoint : Nat)
  | invalidMapping (mapping : List Nat) (fault : MappingFault)
  | noSolution (count : Nat)
  | noReadyStatement (remaining : Nat)
  | outOfBridgeReach (u v distance : Nat)
  | notAdjacent (u v : Nat)
  | replay (callPoint : Nat) (fault : ReplayFault)
  | json
  | costOverflow (total : Nat)
  | config (fault : ConfigFault)
  | outOfRange
  deriving DecidableEq, Repr

/-- The wording of an allocation error. -/
def AllocError.message : AllocError → String
  | .device cause => "Architecture error: " ++ cause.message
  | .malformed line fault => s!"Dependency parse error on line {line}: " ++ fault.message
  | .qubitOutOfRange qubit size =>
    s!"Logical qubit {qubit} is out of range for a {size}-qubit device"
  | .selfDependency callPoint qubit =>
    s!"Dependency at call point {callPoint} uses qubit {qubit} twice"
  | .multipleDependencies callPoint count =>
    s!"Call point {callPoint} carries {count} dependencies, expected one"
  | .emptyDependency callPoint => s!"Call point {callPoint} carries no dependency"
  | .invalidMapping mapping fault =>
    "Invalid mapping " ++ Text.listing mapping ++ ": " ++ fault.message
  | .noSolution count => s!"No allocation satisfies all {count} dependencies"
  | .noReadyStatement remaining =>
    s!"No ready statement with {remaining} statements left to schedule"
  | .outOfBridgeReach u v distance =>
    s!"Physical qubits {u} and {v} are {distance} hops apart, bridging reaches 2"
  | .notAdjacent u v => s!"Physical qubits {u} and {v} are not adjacent"
  | .replay callPoint fault =>
    s!"Solution failed verification at call point {callPoint}: " ++ fault.message
  | .json => "JSON error: malformed document"
  | .costOverflow total => s!"Allocation cost {total} exceeds the maximum of 4294967295"
  | .config fault => "Invalid allocator configuration: " ++ fault.message
  | .outOfRange => "Index out of range"

/-- A device error met while allocating. -/
def AllocError.ofDevice {α : Type} (r : Except DeviceError α) : Except AllocError α :=
  r.mapError AllocError.device

/-- A look-up that must succeed. -/
def AllocError.lookup {α : Type} (r : Option α) : Except AllocError α :=
  match r with
  | some a => .ok a
  | none => .error .outOfRange

end QubitAllocation
