import QubitAllocation.Circuit.Wires

/-!
# The frontier of a circuit

The frontier of a circuit that is being scheduled. It counts, for each node, the wires that have not
yet brought it to their front; a node for which no wire is left is ready. Only wires whose front
changed since the last count are looked at again.
-/

namespace QubitAllocation

/-- Wire fronts, the wires counted, the wires each node waits for, the ready nodes in program
order, and the call points scheduled so far. -/
structure Frontier where
  cursor : Cursor
  counted : Array Bool
  waiting : Array Nat
  ready : List Nat
  schedule : List Nat

namespace Frontier

/-- Nothing is counted; nodes without a wire never reach a front and are scheduled at once. -/
def start (c : Circuit) : Frontier where
  cursor := .start c
  counted := Array.replicate c.numWires false
  waiting := c.wireTable.map List.length
  ready := []
  schedule :=
    ((c.nodes.toList.zip c.wireTable.toList).filter fun entry => entry.2.isEmpty).map
      fun entry => entry.1.callPoint

/-- Count the front of one wire, unless it has been counted. -/
def markWire (f : Frontier) (w : Nat) : Option Frontier := do
  let counted ← f.counted[w]?
  if counted then return f
  match f.cursor.front w with
  | none => return f
  | some i =>
    match ← f.waiting[i]? with
    | 0 => none
    | left + 1 =>
      return { f with
        counted := f.counted.setIfInBounds w true
        waiting := f.waiting.setIfInBounds i left
        ready := if left = 0 then insertAscending i f.ready else f.ready }

/-- Count the fronts of all wires. -/
def mark (f : Frontier) (c : Circuit) : Option Frontier :=
  (List.range c.numWires).foldlM markWire f

/-- Schedule a node: consume it on its wires, which are then to be counted again. -/
def commit (f : Frontier) (c : Circuit) (i : Nat) : Option Frontier := do
  let node ← c.node? i
  let (_, cursor) ← f.cursor.advance? c i
  return { f with
    cursor := cursor
    counted := (c.wires i).foldl (fun counted w => counted.setIfInBounds w false) f.counted
    ready := f.ready.erase i
    schedule := f.schedule ++ [node.callPoint] }

/-- The first node at a wire's front that touches no other wire. -/
def lone? (f : Frontier) (c : Circuit) : Option Nat :=
  (f.cursor.fronts.filterMap id).find? fun i => c.arity i ≤ 1

end Frontier

end QubitAllocation
