import QubitAllocation.Circuit.Streams
import QubitAllocation.Text.Number

/-!
# Circuits

A circuit shows a program wire by wire. Wires are the qubits and after them the classical bits;
each carries the nodes that touch it in program order. Wires are counted in 32 bits, so a program
that declares more of them has no circuit (`Program.circuit?`). A `Cursor` has a position on every
wire and consumes a node once it is at the front of all its wires.
-/

namespace QubitAllocation

/-- Nodes in program order, with the wires of each and the stream of each wire. -/
structure Circuit extends Streams where
  numQubits : Nat
  numClbits : Nat
  nodes : Array Node
  wireTable_eq : wireTable = nodes.map (Node.wires numQubits numClbits)
  agree : toStreams.Agree (numQubits + numClbits)

namespace Circuit

/-- The circuit of nodes in program order. -/
def ofNodes (numQubits numClbits : Nat) (nodes : List Node) : Circuit where
  toStreams := .ofNodes numQubits numClbits nodes
  numQubits := numQubits
  numClbits := numClbits
  nodes := nodes.toArray
  wireTable_eq := Streams.wireTable_ofNodes numQubits numClbits nodes
  agree := Streams.agree_ofNodes numQubits numClbits nodes

/-- One node for each dependency, on the qubits of all its pairs. -/
def ofDependencies (deps : Dependencies) (numQubits : Nat) : Circuit :=
  ofNodes numQubits 0 <| deps.map fun d =>
    ⟨d.callPoint, "cx", d.pairs.flatMap fun p => [p.control, p.target], []⟩

/-- The number of wires. -/
def numWires (c : Circuit) : Nat := c.numQubits + c.numClbits

/-- The number of nodes. -/
def size (c : Circuit) : Nat := c.nodes.size

/-- The node of an index. -/
def node? (c : Circuit) (i : Nat) : Option Node := c.nodes[i]?

/-- The wires of a node. -/
def wires? (c : Circuit) (i : Nat) : Option (List Nat) := c.wireTable[i]?

/-- The wires of a node, none beyond the last node. -/
def wires (c : Circuit) (i : Nat) : List Nat := (c.wires? i).getD []

/-- The number of wires of a node. -/
def arity? (c : Circuit) (i : Nat) : Option Nat := (c.wires? i).map List.length

/-- The number of wires of a node, zero beyond the last node. -/
def arity (c : Circuit) (i : Nat) : Nat := (c.wires i).length

/-- The nodes on a wire, in program order. -/
def stream (c : Circuit) (w : Nat) : List Nat := (c.streamTable.getD w #[]).toList

/-- The nodes on every wire. -/
def streams (c : Circuit) : List (List Nat) := c.streamTable.toList.map Array.toList

end Circuit

/-- The circuit of a program. -/
def Program.circuit (p : Program) : Circuit :=
  Circuit.ofNodes p.numQubits p.numClbits <| p.statements.zipIdx.map fun entry =>
    ⟨entry.2, entry.1.name, entry.1.qubits, entry.1.clbits⟩

/-- The circuit of a program, if the number of its wires fits 32 bits. -/
def Program.circuit? (p : Program) : Option Circuit :=
  if p.circuit.numWires ≤ Text.wordMax then some p.circuit else none

/-- The streams of a circuit, with a position on each of them. -/
structure Cursor where
  streams : Array (Array Nat)
  positions : Array Nat
  deriving DecidableEq, Repr

namespace Cursor

/-- All positions are at the start. -/
def start (c : Circuit) : Cursor := ⟨c.streamTable, Array.replicate c.numWires 0⟩

/-- The next node of a wire; the outer `none` says that there is no such wire. -/
def front? (cursor : Cursor) (w : Nat) : Option (Option Nat) := do
  let stream ← cursor.streams[w]?
  let position ← cursor.positions[w]?
  return stream[position]?

/-- The next node of a wire. -/
def front (cursor : Cursor) (w : Nat) : Option Nat := (cursor.front? w).join

/-- The next nodes of all wires. -/
def fronts (cursor : Cursor) : List (Option Nat) :=
  (List.range cursor.positions.size).map cursor.front

/-- Every one of the wires has `i` at its front. -/
def leads (cursor : Cursor) (wires : List Nat) (i : Nat) : Bool :=
  wires.all fun w => cursor.front w == some i

/-- The node is at the front of all its wires. -/
def isFront? (cursor : Cursor) (c : Circuit) (i : Nat) : Option Bool :=
  (c.wires? i).map fun wires => cursor.leads wires i

/-- Move on by one node on each of the wires. -/
def dropFronts (cursor : Cursor) (wires : List Nat) : Cursor :=
  { cursor with
    positions := wires.foldl (fun positions w => positions.modify w (· + 1)) cursor.positions }

/-- Consume a node if it is at the front of all its wires, and say whether it was. -/
def advance? (cursor : Cursor) (c : Circuit) (i : Nat) : Option (Bool × Cursor) :=
  (c.wires? i).map fun wires =>
    if cursor.leads wires i then (true, cursor.dropFronts wires) else (false, cursor)

/-- No wire has a next node. -/
def isDone (cursor : Cursor) : Bool := cursor.fronts.all Option.isNone

end Cursor

end QubitAllocation
