import QubitAllocation.Circuit.Program
import QubitAllocation.Json.Printer
import QubitAllocation.Json.Reader
import QubitAllocation.Plan.Solution

/-!
# Records in JSON

Dependencies, programs and solutions as JSON documents. A record is an object with its fields in
any order, or an array with its fields in the order given here. Fields that a record does not know
are passed over; a field given twice is refused.

An operation is told apart by its tag `op`. The other fields of an operation object are held until
the tag is known, so even those that are passed over must be holdable.
-/

namespace QubitAllocation

open JsonValue

/-- The pair of an object with `from` and `to`. -/
def Pair.ofJson? (v : JsonValue) : Option Pair :=
  match v.columns? ["from", "to"] with
  | some [some a, some b] => do
    let a ← a.word?
    let b ← b.word?
    return ⟨a, b⟩
  | _ => none

/-- A pair as an object. -/
def Pair.toJson (p : Pair) : JsonValue := record [("from", nat p.control), ("to", nat p.target)]

/-- The dependency of an object with `call_point` and `deps`. -/
def Dependency.ofJson? (v : JsonValue) : Option Dependency :=
  match v.columns? ["call_point", "deps"] with
  | some [some callPoint, some pairs] => do
    let callPoint ← callPoint.word?
    let items ← pairs.items?
    let pairs ← items.mapM Pair.ofJson?
    return ⟨callPoint, pairs⟩
  | _ => none

/-- A dependency as an object. -/
def Dependency.toJson (d : Dependency) : JsonValue :=
  record [("call_point", nat d.callPoint), ("deps", .array (d.pairs.map Pair.toJson))]

/-- The dependencies of an array. -/
def Dependencies.ofJson? (v : JsonValue) : Option Dependencies := do
  let items ← v.items?
  items.mapM Dependency.ofJson?

/-- Dependencies as an array. -/
def Dependencies.toJson (deps : Dependencies) : JsonValue :=
  .array (deps.map Dependency.toJson)

/-- The dependencies of a JSON text. -/
def Dependencies.readJson (text : String) : Except AllocError Dependencies :=
  match (JsonValue.read? text.toList).bind Dependencies.ofJson? with
  | some deps => .ok deps
  | none => .error .json

/-- A list of numbers that may be missing. -/
def wordsOrNone? (v : Option JsonValue) : Option (List Nat) :=
  match v with
  | some v => v.words?
  | none => some []

/-- A number that may be missing. -/
def wordOrZero? (v : Option JsonValue) : Option Nat :=
  match v with
  | some v => v.word?
  | none => some 0

/-- The statement of an object with `name` and perhaps `qubits` and `clbits`. -/
def Statement.ofJson? (v : JsonValue) : Option Statement :=
  match v.columns? ["name", "qubits", "clbits"] with
  | some [some name, qubits, clbits] => do
    let name ← name.text?
    let qubits ← wordsOrNone? qubits
    let clbits ← wordsOrNone? clbits
    return ⟨name, qubits, clbits⟩
  | _ => none

/-- A statement as an object. -/
def Statement.toJson (s : Statement) : JsonValue :=
  record
    [("name", JsonValue.text s.name), ("qubits", .array (s.qubits.map nat)),
      ("clbits", .array (s.clbits.map nat))]

/-- The program of an object with `statements` and perhaps `num_qubits` and `num_clbits`. -/
def Program.ofJson? (v : JsonValue) : Option Program :=
  match v.columns? ["num_qubits", "num_clbits", "statements"] with
  | some [numQubits, numClbits, some statements] => do
    let numQubits ← wordOrZero? numQubits
    let numClbits ← wordOrZero? numClbits
    let items ← statements.items?
    let statements ← items.mapM Statement.ofJson?
    return ⟨numQubits, numClbits, statements⟩
  | _ => none

/-- A program as an object. -/
def Program.toJson (p : Program) : JsonValue :=
  record
    [("num_qubits", nat p.numQubits), ("num_clbits", nat p.numClbits),
      ("statements", .array (p.statements.map Statement.toJson))]

/-- The program of a JSON text, checked. -/
def Program.readJson (text : String) : Except AllocError Program :=
  match (JsonValue.read? text.toList).bind Program.ofJson? with
  | some p => do
    p.validate
    return p
  | none => .error .json

/-- The operation of a tag and its operands. -/
def Operation.ofTag? (tag : String) (operands : List String → Option (List (Option JsonValue))) :
    Option Operation := do
  let names := if tag = "long_cnot" then ["a", "b", "bridge"] else ["a", "b"]
  let columns ← operands names
  let words ← columns.mapM fun column => column.bind word?
  match tag, words with
  | "cnot", [a, b] => some (.cnot a b)
  | "rev", [a, b] => some (.rev a b)
  | "swap", [a, b] => some (.swap a b)
  | "long_cnot", [a, b, bridge] => some (.longCnot a b bridge)
  | _, _ => none

/-- The operation of an object with the tag `op`, or of an array that starts with the tag. The
containers nested in it may be `depth` deep. -/
def Operation.ofJson? (depth : Nat) : JsonValue → Option Operation
  | .object fields =>
    if holdableFields depth fields then do
      let tag ← (← single? fields "op")
      Operation.ofTag? (← tag.text?) fun names => columns? names (.object fields)
    else none
  | .array (tag :: operands) => do
    Operation.ofTag? (← tag.text?) fun names =>
      if operands.length = names.length then some (operands.map some) else none
  | _ => none

/-- An operation as an object. -/
def Operation.toJson : Operation → JsonValue
  | .cnot a b => record [("op", JsonValue.text "cnot"), ("a", nat a), ("b", nat b)]
  | .rev a b => record [("op", JsonValue.text "rev"), ("a", nat a), ("b", nat b)]
  | .swap a b => record [("op", JsonValue.text "swap"), ("a", nat a), ("b", nat b)]
  | .longCnot a b bridge =>
    record [("op", JsonValue.text "long_cnot"), ("a", nat a), ("b", nat b), ("bridge", nat bridge)]

/-- How deep containers may be nested inside an operation of a solution: a document may nest 127
containers, and an operation is the fifth. -/
def Operation.nesting : Nat := 122

/-- The step of an object with `call_point` and `ops`. -/
def Step.ofJson? (v : JsonValue) : Option Step :=
  match v.columns? ["call_point", "ops"] with
  | some [some callPoint, some ops] => do
    let callPoint ← callPoint.word?
    let items ← ops.items?
    let ops ← items.mapM (Operation.ofJson? Operation.nesting)
    return ⟨callPoint, ops⟩
  | _ => none

/-- A step as an object. -/
def Step.toJson (s : Step) : JsonValue :=
  record [("call_point", nat s.callPoint), ("ops", .array (s.ops.map Operation.toJson))]

/-- The solution of an object with `initial`, `cost` and `op_seqs`. -/
def Solution.ofJson? (v : JsonValue) : Option Solution :=
  match v.columns? ["initial", "cost", "op_seqs"] with
  | some [some initial, some cost, some steps] => do
    let initial ← initial.words?
    let cost ← cost.word?
    let items ← steps.items?
    let steps ← items.mapM Step.ofJson?
    return ⟨initial, cost, steps⟩
  | _ => none

/-- A solution as an object. -/
def Solution.toJson (s : Solution) : JsonValue :=
  record
    [("initial", .array (s.initial.map nat)), ("cost", nat s.cost),
      ("op_seqs", .array (s.steps.map Step.toJson))]

/-- The solution of a JSON text. -/
def Solution.readJson (text : String) : Except AllocError Solution :=
  match (JsonValue.read? text.toList).bind Solution.ofJson? with
  | some s => .ok s
  | none => .error .json

end QubitAllocation
