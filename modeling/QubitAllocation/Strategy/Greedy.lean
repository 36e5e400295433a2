import QubitAllocation.Choice
import QubitAllocation.Circuit.Frontier
import QubitAllocation.Dependency.Table
import QubitAllocation.Layout
import QubitAllocation.Placement.Basic
import QubitAllocation.Strategy.Gate

/-!
# Greedy allocation

A circuit is scheduled node by node. Nodes on at most one wire go at once, and so do ready nodes
without a dependency. Otherwise the ready dependency with the cheapest fix goes first: a native
edge is free, an edge of the other direction costs a reversal, a qubit that nothing has used yet
may be moved next to its partner by changing the first mapping, and else the operands are swapped
together along a shortest route.
-/

namespace QubitAllocation.Greedy

/-- How the gate of a dependency becomes possible. -/
inductive Fix where
  | native
  | reversed
  | relocate (mover partner : Nat)
  | chain (route : List Nat)
  deriving DecidableEq, Repr

/-- A fix and its price. -/
structure Candidate where
  cost : Nat
  fix : Fix
  deriving DecidableEq, Repr

/-- Where the qubits are, the first mapping, and the qubits that have been used. -/
structure State where
  layout : Layout
  initial : List Nat
  used : List Nat

/-- Mark a qubit as used. -/
def State.use (s : State) (q : Nat) : State := { s with used := s.used.insert q }

/-- The price of a gate on coupled qubits `u` and `v`. -/
def directionPrice (d : Device) (costs : CostModel) (u v : Nat) : Nat :=
  if d.hasEdge u v then 0 else costs.reverse

/-- Move the unused qubit `mover` onto a neighbour of `anchor` that holds an unused qubit. -/
def relocation? (d : Device) (costs : CostModel) (s : State) (p : Pair) (mover anchor : Nat) :
    Except AllocError (Option Candidate) := do
  if s.used.contains mover then return none
  let place ← AllocError.lookup (s.layout.physical? anchor)
  let sites ← (d.neighbours place).mapM fun w => do
    let partner ← AllocError.lookup (s.layout.logical? w)
    pure (w, partner)
  return (sites.find? fun site => !s.used.contains site.2).map fun site =>
    let cost :=
      if mover = p.control then directionPrice d costs site.1 place
      else directionPrice d costs place site.1
    ⟨cost, .relocate mover site.2⟩

/-- Move one of the operands next to the other, the target first unless it has been used. -/
def relocate? (d : Device) (costs : CostModel) (s : State) (p : Pair) :
    Except AllocError (Option Candidate) := do
  let (mover, anchor) :=
    if s.used.contains p.target then (p.control, p.target) else (p.target, p.control)
  if s.used.contains mover then return none
  match ← relocation? d costs s p mover anchor with
  | some candidate => return some candidate
  | none => relocation? d costs s p anchor mover

/-- The route along which the operands are swapped together, from the operand that moves, and its
price: the target moves if the first hop is native, and else the control. -/
def chainAlong (d : Device) (costs : CostModel) (route : List Nat) : Candidate :=
  let swaps := (route.length - 2) * costs.swap
  let native := fun (hop : List Nat) =>
    match hop with
    | u :: v :: _ => d.hasEdge u v
    | _ => false
  if native route then ⟨swaps, .chain route.reverse⟩
  else if native (route.drop (route.length - 2)) then ⟨swaps, .chain route⟩
  else ⟨swaps + costs.reverse, .chain route⟩

/-- The fix of a dependency as things stand. -/
def evaluate (d : Device) (costs : CostModel) (s : State) (p : Pair) :
    Except AllocError Candidate := do
  let u ← AllocError.lookup (s.layout.physical? p.control)
  let v ← AllocError.lookup (s.layout.physical? p.target)
  if d.hasEdge u v then return ⟨0, .native⟩
  else if d.hasEdge v u then return ⟨costs.reverse, .reversed⟩
  else
    match ← relocate? d costs s p with
    | some candidate => return candidate
    | none => do
      let route ← AllocError.ofDevice (d.route u v)
      return chainAlong d costs route

/-- Swap along hops. -/
def swapHops : List (Nat × Nat) → State → Except AllocError (List Operation × State)
  | [], s => .ok ([], s)
  | (u, v) :: hops, s => do
    let a ← AllocError.lookup (s.layout.logical? u)
    let b ← AllocError.lookup (s.layout.logical? v)
    let layout ← AllocError.lookup (s.layout.exchangePhysical u v)
    let (ops, final) ← swapHops hops { (s.use a).use b with layout := layout }
    return (.swap a b :: ops, final)

/-- The hops of a route before its last one. -/
def earlierHops (route : List Nat) : List (Nat × Nat) :=
  (route.zip route.tail).dropLast

/-- Carry out a fix and emit the gate. -/
def apply (d : Device) (s : State) (p : Pair) (fix : Fix) :
    Except AllocError (List Operation × State) := do
  let (swaps, moved) ← match fix with
    | .native | .reversed => pure ([], s)
    | .relocate mover partner => do
      let layout ← AllocError.lookup (s.layout.exchangeLogical mover partner)
      let initial := Arrangement.exchange s.initial mover partner
      pure ([], { s with layout := layout, initial := initial })
    | .chain route => swapHops (earlierHops route) s
  let gate ← Gate.adjacent d moved.layout.mapping p
  return (swaps ++ [gate], (moved.use p.control).use p.target)

/-- What a run needs to know: the device, prices, the circuit and the pair of each call point. -/
structure Task where
  device : Device
  costs : CostModel
  circuit : Circuit
  pairs : List (Nat × Pair)

/-- The pair of a node, if it has one. -/
def Task.pair? (t : Task) (i : Nat) : Option Pair :=
  (t.circuit.node? i).bind fun node => t.pairs.lookup node.callPoint

/-- A run in progress. -/
structure Run where
  frontier : Frontier
  state : State
  cost : Nat
  steps : List Step

/-- A ready node, its pair and its fix. -/
structure Bid where
  node : Nat
  pair : Pair
  candidate : Candidate

/-- The bid of a ready node. -/
def bid (t : Task) (s : State) (i : Nat) : Except AllocError Bid := do
  let p ← AllocError.lookup (t.pair? i)
  let candidate ← evaluate t.device t.costs s p
  return ⟨i, p, candidate⟩

/-! ## The loop

The loop is written for any monad that can handle refusals and calls on the frontier. The plain
handler makes the calls and does nothing else. -/

/-- Why a node is committed: it has at most one wire, it has no pair, or its fix is the cheapest. -/
inductive Cause where
  | lone
  | free
  | cheapest
  deriving DecidableEq

/-- A call on a frontier, which is as it is before the call. -/
inductive Call where
  | mark (f : Frontier)
  | commit (cause : Cause) (f : Frontier) (i : Nat)

/-- The answer of a call. -/
def Call.answer (c : Circuit) : Call → Option Frontier
  | .mark f => f.mark c
  | .commit _ f i => f.commit c i

/-- What becomes in `m` of a computation that may be refused, and of a call. -/
structure Handler (m : Type → Type) where
  lift : {α : Type} → Except AllocError α → m α
  call : Circuit → Call → m Frontier

/-- Refusals are refusals, and calls are made. -/
abbrev plain : Handler (Except AllocError) where
  lift x := x
  call c call := AllocError.lookup (call.answer c)

namespace Handler

variable {m : Type → Type} [Monad m]

/-- Commit ready nodes that have no dependency. -/
def commitFree (h : Handler m) (t : Task) : List Nat → Run → m Run
  | [], r => pure r
  | i :: rest, r => do
    let node ← h.lift (AllocError.lookup (t.circuit.node? i))
    let frontier ← h.call t.circuit (.commit .free r.frontier i)
    h.commitFree t rest
      { r with frontier := frontier, state := node.qubits.foldl State.use r.state }

/-- Commit the cheapest of the ready dependencies. -/
def commitCheapest (h : Handler m) (t : Task) (r : Run) : m Run := do
  let bids ← h.lift (r.frontier.ready.mapM (bid t r.state))
  let best ← h.lift (AllocError.lookup (firstLeast (fun b => b.candidate.cost) bids))
  let node ← h.lift (AllocError.lookup (t.circuit.node? best.node))
  let (ops, state) ← h.lift (apply t.device r.state best.pair best.candidate.fix)
  let frontier ← h.call t.circuit (.commit .cheapest r.frontier best.node)
  return ⟨frontier, state, r.cost + best.candidate.cost, r.steps ++ [⟨node.callPoint, ops⟩]⟩

/-- Commit at least one node. -/
def advance (h : Handler m) (t : Task) (r : Run) : m Run :=
  match r.frontier.lone? t.circuit with
  | some i => do
    let frontier ← h.call t.circuit (.commit .lone r.frontier i)
    return { r with frontier := frontier }
  | none => do
    let frontier ← h.call t.circuit (.mark r.frontier)
    let marked := { r with frontier := frontier }
    if frontier.ready.isEmpty then
      h.lift (.error (.noReadyStatement (t.circuit.size - frontier.schedule.length)))
    else
      match frontier.ready.filter fun i => (t.pair? i).isNone with
      | [] => h.commitCheapest t marked
      | free => h.commitFree t free marked

/-- Advance until every node is scheduled, at most `fuel` times. -/
def advanceAll (h : Handler m) (t : Task) : Nat → Run → m Run
  | 0, r => pure r
  | fuel + 1, r =>
    if t.circuit.size ≤ r.frontier.schedule.length then pure r
    else do
      let next ← h.advance t r
      h.advanceAll t fuel next

end Handler

/-- `Handler.commitFree` with plain calls. -/
abbrev commitFree (t : Task) (free : List Nat) (r : Run) : Except AllocError Run :=
  plain.commitFree t free r

/-- `Handler.commitCheapest` with plain calls. -/
abbrev commitCheapest (t : Task) (r : Run) : Except AllocError Run := plain.commitCheapest t r

/-- `Handler.advance` with plain calls. -/
abbrev advance (t : Task) (r : Run) : Except AllocError Run := plain.advance t r

/-- `Handler.advanceAll` with plain calls. -/
abbrev advanceAll (t : Task) (fuel : Nat) (r : Run) : Except AllocError Run :=
  plain.advanceAll t fuel r

/-- A solution and the call points of all nodes in the order in which they were committed. -/
structure Outcome where
  solution : Solution
  schedule : List Nat
  deriving DecidableEq, Repr

/-- Allocate a circuit whose dependencies are matched to its nodes by call point. -/
def solveCircuit (d : Device) (costs : CostModel) (placement : Placement) (c : Circuit)
    (deps : Dependencies) : Except AllocError Outcome := do
  if d.size < c.numQubits then .error (.qubitOutOfRange (c.numQubits - 1) d.size)
  deps.validate d.size
  let pairs ← deps.table
  let initial ← placement.find d deps
  checkMapping initial d.size
  let layout ← Layout.ofMapping initial
  let start : Run := ⟨.start c, ⟨layout, initial, []⟩, 0, []⟩
  let final ← advanceAll ⟨d, costs, c, pairs⟩ c.size start
  let cost ← narrowCost final.cost
  return ⟨⟨final.state.initial, cost, final.steps⟩, final.frontier.schedule⟩

/-- Allocate a list of dependencies. -/
def solve (d : Device) (costs : CostModel) (placement : Placement) (deps : Dependencies) :
    Except AllocError Solution := do
  let outcome ← solveCircuit d costs placement (.ofDependencies deps d.size) deps
  return outcome.solution

end QubitAllocation.Greedy
