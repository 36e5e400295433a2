import QubitAllocation.Device.Error
import QubitAllocation.Device.Links

/-!
# Devices

A device has `size` physical qubits and directed couplings between them: the edge `(u, v)` says
that a gate with control `u` and target `v` is native. The opposite direction of a coupling is
still usable at a price, so most questions about a device ignore directions.

The edge list is in insertion order, without repetitions and without loops. The set of edges and
the successor, predecessor and neighbour lists are filled once, when the device is made; the type
records that they are those of the edge list.
-/

namespace QubitAllocation

/-- A named, contiguous range of physical qubits. -/
structure Register where
  name : String
  size : Nat
  deriving DecidableEq, Repr

/-- An edge joins two distinct qubits of the device. -/
def ValidEdge (size : Nat) (e : Nat × Nat) : Prop :=
  e.1 < size ∧ e.2 < size ∧ e.1 ≠ e.2

instance (size : Nat) (e : Nat × Nat) : Decidable (ValidEdge size e) :=
  inferInstanceAs (Decidable (_ ∧ _ ∧ _))

/-- The successors of a qubit and then its predecessors, none that is listed already. -/
def mergeRows (successors predecessors : List Nat) : List Nat :=
  predecessors.foldl (fun listed p => if listed.contains p then listed else listed ++ [p])
    successors

/-- A device with its couplings and registers. -/
structure Device where
  size : Nat
  edges : List (Nat × Nat)
  registers : List Register
  natural : EdgeSet
  successorTable : Array (List Nat)
  predecessorTable : Array (List Nat)
  neighbourTable : Array (List Nat)
  edges_valid : ∀ e ∈ edges, ValidEdge size e
  edges_nodup : edges.Nodup
  natural_iff : ∀ e, natural.contains e = true ↔ e ∈ edges
  successorTable_eq : successorTable = rows size Prod.fst Prod.snd edges
  predecessorTable_eq : predecessorTable = rows size Prod.snd Prod.fst edges
  neighbourTable_eq : neighbourTable = Array.zipWith mergeRows successorTable predecessorTable

namespace Device

/-- The device with the given valid edges; later repetitions of an edge are dropped. -/
def assemble (size : Nat) (edges : List (Nat × Nat)) (registers : List Register)
    (valid : ∀ e ∈ edges, ValidEdge size e) : Device :=
  let links := Links.ofEdges size edges
  let successors := links.successors.map Array.toList
  let predecessors := links.predecessors.map Array.toList
  { size := size
    edges := links.kept.toList
    registers := registers
    natural := links.natural
    successorTable := successors
    predecessorTable := predecessors
    neighbourTable := Array.zipWith mergeRows successors predecessors
    edges_valid := fun e he => valid e (Links.mem_of_mem_kept he)
    edges_nodup := (Links.agree_ofEdges size edges).nodup
    natural_iff := (Links.agree_ofEdges size edges).contains_iff
    successorTable_eq := (Links.agree_ofEdges size edges).successors_eq
    predecessorTable_eq := (Links.agree_ofEdges size edges).predecessors_eq
    neighbourTable_eq := rfl }

/-- Why an edge is refused: an end outside the device is reported before a loop. -/
def edgeError (size : Nat) (e : Nat × Nat) : DeviceError :=
  if e.1 < size ∧ e.2 < size then .selfLoop e.1 else .invalidEdge e.1 e.2 size

/-- The device with the given edges and registers; the first invalid edge is reported. -/
def build (size : Nat) (edges : List (Nat × Nat)) (registers : List Register) :
    Except DeviceError Device :=
  match h : edges.find? fun e => !decide (ValidEdge size e) with
  | some e => .error (edgeError size e)
  | none =>
    .ok <| assemble size edges registers fun e he => by
      have := List.find?_eq_none.1 h e he
      simpa using this

/-- The device with the given edges and one register `q`. -/
def ofEdges (size : Nat) (edges : List (Nat × Nat)) : Except DeviceError Device :=
  build size edges [⟨"q", size⟩]

/-- Targets of the edges that leave `u`. -/
def successors (d : Device) (u : Nat) : List Nat := d.successorTable.getD u []

/-- Controls of the edges that enter `u`. -/
def predecessors (d : Device) (u : Nat) : List Nat := d.predecessorTable.getD u []

/-- The qubits coupled with `u`: successors first, then the other predecessors. -/
def neighbours (d : Device) (u : Nat) : List Nat := d.neighbourTable.getD u []

/-- The number of qubits coupled with `u`. -/
def degree (d : Device) (u : Nat) : Nat := (d.neighbours u).length

/-- `(u, v)` is a native edge. -/
def hasEdge (d : Device) (u v : Nat) : Bool := d.natural.contains (u, v)

/-- `(u, v)` is usable only through the edge `(v, u)`. -/
def isReverseEdge (d : Device) (u v : Nat) : Bool := d.hasEdge v u && !d.hasEdge u v

/-- `u` and `v` are coupled, in either direction. -/
def isAdjacent (d : Device) (u v : Nat) : Bool := d.hasEdge u v || d.hasEdge v u

/-- The two ends of a coupling, listed once with the lower qubit first: by the lower qubit, then
in the order of its neighbours. -/
def couplings (d : Device) : List (Nat × Nat) :=
  (List.range d.size).flatMap fun u =>
    ((d.neighbours u).filter fun v => u < v).map fun v => (u, v)

end Device

/-- The global index of `index` in the first register called `name`, counted from `offset`. -/
def resolveIn (offset : Nat) (name : String) (index : Nat) : List Register → Option Nat
  | [] => none
  | r :: rs =>
    if r.name = name then if index < r.size then some (offset + index) else none
    else resolveIn (offset + r.size) name index rs

/-- The global index of `name[index]`, if there is one. -/
def Device.resolve? (d : Device) (name : String) (index : Nat) : Option Nat :=
  resolveIn 0 name index d.registers

/-- The device as a Graphviz digraph. -/
def Device.toDot (d : Device) : String :=
  let nodes := (List.range d.size).map fun u => s!"    {u} [ label = \"{u}\" ]\n"
  let links := d.edges.map fun e => "    " ++ toString e.1 ++ " -> " ++ toString e.2 ++ " [ ]\n"
  "digraph \x7b\n" ++ String.join nodes ++ String.join links ++ "\x7d\n"

end QubitAllocation
