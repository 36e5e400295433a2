import QubitAllocation.Dependency.Basic
import QubitAllocation.Layout
import QubitAllocation.Strategy.Gate

/-!
# Path-guided allocation

Dependencies are met in order along shortest routes from a given mapping. The target is swapped
along the route until it is next to the control. A chain of swaps over qubits that nothing has
used yet is moved into the first mapping, where it is free. A pair that comes again is turned
round once if it runs against an edge; a pair that does not come again is reversed or bridged.
-/

namespace QubitAllocation.PathGuided

/-- What the swaps of a run amount to. -/
structure Stats where
  totalSwapCost : Nat
  chains : Nat
  chainSwaps : Nat
  deriving DecidableEq, Repr

/-- The run so far: where the qubits are, the first mapping, the qubits already used, the
operations emitted for the current dependency, and counts of swaps. -/
structure State where
  layout : Layout
  initial : List Nat
  used : List Nat
  ops : List Operation
  total : Nat
  swapTotal : Nat
  chains : Nat
  chainSwaps : Nat

namespace State

/-- The run before the first dependency. -/
def start (layout : Layout) : State := ⟨layout, layout.mapping, [], [], 0, 0, 0, 0⟩

/-- Mark qubits as used. -/
def use (s : State) (qubits : List Nat) : State :=
  { s with used := qubits.foldl (fun used q => used.insert q) s.used }

/-- Emit a gate. -/
def emit (s : State) (costs : CostModel) (op : Operation) : State :=
  { s with ops := s.ops ++ [op], total := s.total + costs.price op }

/-- Emit a swap. -/
def emitSwap (s : State) (costs : CostModel) (op : Operation) : State :=
  { s.emit costs op with swapTotal := s.swapTotal + costs.price op }

end State

/-- The hops of a route after its first one, last first. -/
def laterHops (route : List Nat) : List (Nat × Nat) :=
  (route.tail.zip route.tail.tail).reverse

/-- Swap along hops, each written along its edge. -/
def chain (d : Device) : List (Nat × Nat) → Layout →
    Except AllocError (List Operation × Layout)
  | [], layout => .ok ([], layout)
  | hop :: hops, layout => do
    let (u, v) := if d.isReverseEdge hop.1 hop.2 then (hop.2, hop.1) else hop
    let a ← AllocError.lookup (layout.logical? u)
    let b ← AllocError.lookup (layout.logical? v)
    let moved ← AllocError.lookup (layout.exchangePhysical u v)
    let (ops, final) ← chain d hops moved
    return (.swap a b :: ops, final)

/-- The logical qubits on a route. -/
def holders (layout : Layout) (route : List Nat) : Except AllocError (List Nat) :=
  route.mapM fun p => AllocError.lookup (layout.logical? p)

/-- Enter the qubits of a route into a mapping where the layout has them. -/
def fold (layout : Layout) (route initial : List Nat) : Except AllocError (List Nat) :=
  route.foldlM
    (fun mapping p => do
      let l ← AllocError.lookup (layout.logical? p)
      return mapping.set l p)
    initial

/-- Bring the target of a pair along a route until it is next to the control. -/
def approach (d : Device) (costs : CostModel) (route : List Nat) (s : State) :
    Except AllocError State :=
  if route.length ≤ 2 then .ok s
  else do
    let held ← holders s.layout route
    let untouched := held.all fun l => !s.used.contains l
    let (ops, layout) ← chain d (laterHops route) s.layout
    let s := { s.use held with layout := layout }
    if untouched then
      let initial ← fold layout route s.initial
      return { s with initial := initial }
    else
      let s := ops.foldl (fun s op => s.emitSwap costs op) s
      return { s with chains := s.chains + 1, chainSwaps := s.chainSwaps + ops.length }

/-- Emit the gate of a pair on coupled qubits. -/
def settle (d : Device) (costs : CostModel) (seenAgain : Bool) (p : Pair) (s : State) :
    Except AllocError State := do
  let u ← AllocError.lookup (s.layout.physical? p.control)
  let v ← AllocError.lookup (s.layout.physical? p.target)
  if d.hasEdge u v then return s.emit costs (.cnot p.control p.target)
  else if d.hasEdge v u then
    if seenAgain then
      let layout ← AllocError.lookup (s.layout.exchangeLogical p.control p.target)
      let s :=
        if s.used.contains p.control || s.used.contains p.target then
          s.emitSwap costs (.swap p.control p.target)
        else { s with initial := Arrangement.exchange s.initial p.control p.target }
      return { s with layout := layout }.emit costs (.cnot p.control p.target)
    else return s.emit costs (.rev p.control p.target)
  else .error (.notAdjacent u v)

/-- The qubit to bridge over: a route of two hops whose first runs against its edge has one. -/
def bridge? (d : Device) : List Nat → Option Nat
  | [u, m, _] => if d.isReverseEdge u m then some m else none
  | _ => none

/-- Meet one dependency. -/
def meet (d : Device) (costs : CostModel) (seenAgain : Bool) (p : Pair) (s : State) :
    Except AllocError State := do
  let u ← AllocError.lookup (s.layout.physical? p.control)
  let v ← AllocError.lookup (s.layout.physical? p.target)
  let route ← AllocError.ofDevice (d.route u v)
  let met ← match bridge? d route, seenAgain with
    | some m, false => do
      let held ← holders s.layout route
      pure ((s.use held).emit costs (.longCnot p.control p.target m))
    | _, _ => do
      let near ← approach d costs route s
      settle d costs seenAgain p near
  return met.use [p.control, p.target]

/-- Meet the dependencies in order; a pair is seen again if a later dependency has it. -/
def run (d : Device) (costs : CostModel) : List (Nat × Pair) → State →
    Except AllocError (List Step × State)
  | [], s => .ok ([], s)
  | (callPoint, p) :: rest, s => do
    let met ← meet d costs (rest.any fun entry => entry.2 == p) p { s with ops := [] }
    let (steps, final) ← run d costs rest met
    return (⟨callPoint, met.ops⟩ :: steps, final)

/-- Allocate from a given mapping, with the statistics of the run. -/
def build (d : Device) (costs : CostModel) (deps : Dependencies) (initial : List Nat) :
    Except AllocError (Solution × Stats) := do
  checkMapping initial d.size
  deps.validate d.size
  let pairs ← deps.pairs
  let layout ← Layout.ofMapping initial
  let (steps, final) ← run d costs ((deps.map Dependency.callPoint).zip pairs) (.start layout)
  let cost ← narrowCost final.total
  let swapCost ← narrowCost final.swapTotal
  return (⟨final.initial, cost, steps⟩, ⟨swapCost, final.chains, final.chainSwaps⟩)

end QubitAllocation.PathGuided
