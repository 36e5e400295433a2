import QubitAllocation.Choice
import QubitAllocation.Dependency.Basic
import QubitAllocation.Strategy.Gate
import QubitAllocation.Token.SwapTable

/-!
# Exact allocation

A dynamic programme over all mappings. After each dependency it keeps, for every mapping under which
the dependency's gate can run, the cost of the cheapest way there and the mapping before it on this
way. Between two gates the tokens are swapped with as few swaps as possible. Ties go to the mapping
of lowest rank. In the end the way to the cheapest mapping is followed back: a `Trail` of the
mappings under which the gates run.
-/

namespace QubitAllocation.Exact

/-- A mapping and its inverse. -/
structure Stop where
  mapping : List Nat
  assignment : List Nat
  deriving DecidableEq, Repr

/-- A way to have run some dependencies: its cost, the last mapping and the ones before it,
latest first. -/
structure Trail where
  cost : Nat
  last : Stop
  earlier : List Stop
  deriving Repr

/-- All mappings in rank order. -/
def stops (n : Nat) : List Stop :=
  (Arrangement.enumerate n).map fun mapping => ⟨mapping, Arrangement.inverse mapping⟩

/-- The price of the gate for a pair with qubits on `u` and `v`, if one gate can do. -/
def gatePrice? (d : Device) (tables : Array (Array (Option Nat))) (costs : CostModel)
    (u v : Nat) : Option Nat :=
  if d.hasEdge u v then some 0
  else if d.hasEdge v u then some costs.reverse
  else if Device.hopsBetween tables u v == some 2 then some costs.longCnot
  else none

/-- The price of the gate for a pair at a stop. -/
def stopPrice? (d : Device) (tables : Array (Array (Option Nat))) (costs : CostModel) (p : Pair)
    (stop : Stop) : Option Nat := do
  let u ← stop.mapping[p.control]?
  let v ← stop.mapping[p.target]?
  gatePrice? d tables costs u v

/-- The price of the swaps from one stop to another; to stay is free. -/
def movePrice? (t : SwapTable) (costs : CostModel) (source target : Stop) : Option Nat :=
  if source = target then some 0
  else (t.distance? source.assignment target.assignment).map (· * costs.swap)

/-- The costs in a table, each with the rank of its stop. -/
def entries (values : Array (Option Nat)) : List (Nat × Nat) :=
  values.toList.zipIdx.filterMap fun entry => entry.1.map fun value => (value, entry.2)

/-- The cheapest way to go on to `target`, whose gate costs `price`: its cost and the rank of the
stop from which it goes on. -/
def bestSource? (t : SwapTable) (costs : CostModel) (all : Array Stop) (values : Array (Option Nat))
    (target : Stop) (price : Nat) : Option (Nat × Nat) :=
  firstLeast Prod.fst <| (entries values).filterMap fun entry => do
    let source ← all[entry.2]?
    let move ← movePrice? t costs source target
    return (addCost (addCost entry.1 move) price, entry.2)

/-- The cheapest way to run a pair at `target` after what the values are for. -/
def cell? (d : Device) (tables : Array (Array (Option Nat))) (costs : CostModel) (t : SwapTable)
    (all : Array Stop) (values : Array (Option Nat)) (p : Pair) (target : Stop) :
    Option (Nat × Nat) := do
  let price ← stopPrice? d tables costs p target
  bestSource? t costs all values target price

/-- The cheapest way to run a pair, for each stop. -/
def layer (d : Device) (tables : Array (Array (Option Nat))) (costs : CostModel) (t : SwapTable)
    (all : Array Stop) (values : Array (Option Nat)) (p : Pair) : Array (Option (Nat × Nat)) :=
  all.map (cell? d tables costs t all values p)

/-- Run the pairs one after the other; `parents` has the sources of all layers, latest first. No
layer comes after one in which there is no way to any stop. -/
def layers? (d : Device) (tables : Array (Array (Option Nat))) (costs : CostModel) (t : SwapTable)
    (all : Array Stop) : List Pair → Array (Option Nat) → List (Array (Option Nat)) →
    Option (Array (Option Nat) × List (Array (Option Nat)))
  | [], values, parents => some (values, parents)
  | p :: ps, values, parents =>
    let next := layer d tables costs t all values p
    if next.all Option.isNone then none
    else
      layers? d tables costs t all ps (next.map (Option.map Prod.fst))
        (next.map (Option.map Prod.snd) :: parents)

/-- The ranks of the stops before the one of rank `rank`, latest first. -/
def ancestors : List (Array (Option Nat)) → Nat → List Nat
  | [], _ => []
  | parents :: earlier, rank =>
    match (parents[rank]?).join with
    | some source => source :: ancestors earlier source
    | none => []

/-- The trail that ends at a rank, whose cost is given. -/
def trailAt? (all : Array Stop) (parents : List (Array (Option Nat))) (entry : Nat × Nat) :
    Option Trail := do
  let last ← all[entry.2]?
  return ⟨entry.1, last, (ancestors parents entry.2).filterMap fun rank => all[rank]?⟩

/-- The cheapest trail through all pairs. Before the first pair every stop is free, so the sources
in its layer are not followed. -/
def bestTrail? (d : Device) (costs : CostModel) (t : SwapTable) : List Pair → Option Trail
  | [] => none
  | p :: ps => do
    let all := (stops d.size).toArray
    let free := Array.replicate all.size (some 0)
    let final ← layers? d d.hopTables costs t all (p :: ps) free []
    let best ← firstLeast Prod.fst (entries final.1)
    trailAt? all final.2.dropLast best

/-- The swaps that bring the tokens from one stop to the next, as operations on what the physical
qubits hold; a swap is written along its edge. -/
def swapOps (d : Device) : List (Nat × Nat) → List Nat → Except AllocError (List Operation)
  | [], _ => .ok []
  | swap :: swaps, assignment => do
    let (u, v) := if d.isReverseEdge swap.1 swap.2 then (swap.2, swap.1) else swap
    let a ← AllocError.lookup assignment[u]?
    let b ← AllocError.lookup assignment[v]?
    let ops ← swapOps d swaps (Arrangement.exchange assignment u v)
    return .swap a b :: ops

/-- The operations that lead from one stop to the next. -/
def moveOps (d : Device) (t : SwapTable) (source target : Stop) :
    Except AllocError (List Operation) :=
  if source = target then .ok []
  else do
    let swaps ← AllocError.ofDevice (t.find source.assignment target.assignment)
    swapOps d swaps source.assignment

/-- The steps of dependencies along the stops of a trail. -/
def steps (d : Device) (t : SwapTable) : Option Stop → List (Dependency × Stop) →
    Except AllocError (List Step)
  | _, [] => .ok []
  | previous, (dep, stop) :: rest => do
    let p ← dep.pair
    let moves ← match previous with
      | some source => moveOps d t source stop
      | none => .ok []
    let gate ← Gate.under d stop.mapping p
    let later ← steps d t (some stop) rest
    return ⟨dep.callPoint, moves ++ [gate]⟩ :: later

/-- The swap table to be used: a given one if it is for as many qubits, else the device's. -/
def chooseTable (d : Device) (shared : Option SwapTable) : Except AllocError SwapTable :=
  match shared with
  | some t => if t.size = d.size then .ok t else AllocError.ofDevice (SwapTable.build d)
  | none => AllocError.ofDevice (SwapTable.build d)

/-- A solution of least cost that meets the dependencies in their order. -/
def solve (d : Device) (costs : CostModel) (shared : Option SwapTable) (deps : Dependencies) :
    Except AllocError Solution := do
  deps.validate d.size
  if deps.isEmpty then return ⟨Arrangement.identity d.size, 0, []⟩
  let t ← chooseTable d shared
  let pairs ← deps.pairs
  match bestTrail? d costs t pairs with
  | none => .error (.noSolution deps.length)
  | some trail =>
    let cost ← narrowCost trail.cost
    let route := (trail.last :: trail.earlier).reverse
    let first ← AllocError.lookup route.head?
    let steps ← steps d t none (deps.zip route)
    return ⟨first.mapping, cost, steps⟩

end QubitAllocation.Exact
