import QubitAllocation.Device.Basic
import QubitAllocation.Text.Number
import QubitAllocation.Total

/-!
# The text form of a device

A description has one item to a line: a header with the number of registers and of qubits, one
line `name size` for each register, and then one line `control target` for each edge. An end of an
edge is a label such as `q[3]`, or the index of a qubit in the whole device.
-/

namespace QubitAllocation.Device

open Text

/-- A fault of a line. -/
def lineError {α : Type} (line : Nat) (fault : LineFault) : Except DeviceError α :=
  .error (.malformed line fault)

/-- The two numbers of a header line. -/
def readHeader (line : Line) : Except DeviceError (Nat × Nat) :=
  match (fields line.text).mapM readWord? with
  | some [a, b] => .ok (a, b)
  | _ => lineError line.number (.expectedTwoNumbers (String.ofList line.text))

/-- The register that a line declares. -/
def readRegister (line : Line) : Except DeviceError Register :=
  match fields line.text with
  | [name, size] =>
    match readWord? size with
    | some n => .ok ⟨String.ofList name, n⟩
    | none => lineError line.number (.invalidRegisterSize (String.ofList size))
  | _ => lineError line.number .expectedRegister

/-- Read `left` register lines of `count`; a missing line is reported at the header. -/
def readRegisters (header count : Nat) :
    Nat → List Line → Except DeviceError (List Register × List Line)
  | 0, lines => .ok ([], lines)
  | _ + 1, [] => lineError header (.expectedRegisters count)
  | left + 1, line :: lines => do
    let register ← readRegister line
    let (registers, rest) ← readRegisters header count left lines
    return (register :: registers, rest)

/-- The name and index of a label `name[index]`: the name ends at the first bracket. -/
def splitLabel? (label : List Char) : Option (String × Nat) :=
  match label.span (· != '[') with
  | (name, '[' :: rest) =>
    match rest.reverse with
    | ']' :: digits => (readWord? digits.reverse).map fun index => (String.ofList name, index)
    | _ => none
  | _ => none

/-- The qubit of a label, `passed` qubits after the start of the device: the first register of the
name decides, also if it is too small. -/
def findLabel (line : Nat) (name : String) (index : Nat) :
    Nat → List Register → Except DeviceError Nat
  | _, [] => lineError line (.unknownRegister name)
  | passed, r :: rs =>
    if r.name = name then
      if r.size ≤ index then lineError line (.indexOutOfRange index name) else .ok (passed + index)
    else findLabel line name index (passed + r.size) rs

/-- The qubit that an end of an edge names. A bare index is checked against the device later. -/
def readEnd (registers : List Register) (line : Nat) (label : List Char) :
    Except DeviceError Nat :=
  match readWord? label with
  | some index => .ok index
  | none =>
    match splitLabel? label with
    | none => lineError line (.malformedLabel (String.ofList label))
    | some (name, index) => findLabel line name index 0 registers

/-- The edge that a line declares. -/
def readEdge (registers : List Register) (line : Line) : Except DeviceError (Nat × Nat) :=
  match fields line.text with
  | [control, target] => do
    let u ← readEnd registers line.number control
    let v ← readEnd registers line.number target
    return (u, v)
  | _ => lineError line.number .expectedEdge

/-- The number of qubits that registers declare, unless it leaves 32 bits. -/
def declaredQubits? (registers : List Register) : Option Nat :=
  let declared := total Register.size registers
  if declared ≤ wordMax then some declared else none

/-- The device that content lines describe. -/
def readLines (lines : List Line) : Except DeviceError Device :=
  match lines with
  | [] => lineError 1 .missingHeader
  | header :: rest => do
    let (count, size) ← readHeader header
    let (registers, edgeLines) ← readRegisters header.number count count rest
    match declaredQubits? registers with
    | none => lineError header.number .registersOverflow
    | some declared =>
      if declared = size then do
        let edges ← edgeLines.mapM (readEdge registers)
        build size edges registers
      else lineError header.number (.registersDisagree declared size)

/-- The device that a text describes. -/
def read (text : String) : Except DeviceError Device :=
  readLines (contentLines text.toList)

end QubitAllocation.Device
