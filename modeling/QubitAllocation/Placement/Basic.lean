import QubitAllocation.Choice
import QubitAllocation.Dependency.Basic
import QubitAllocation.Device.Route
import QubitAllocation.Token.Arrangement
import QubitAllocation.Total

/-!
# First placements

Strategies start from a mapping. The identity puts each logical qubit on the physical qubit of the
same index. The weighted placement puts logical qubits one at a time: next comes the one with most
pairs among those already placed, and it goes where its pairs are short, then where few of them run
against an edge, then where the device has most couplings.
-/

namespace QubitAllocation

/-- How the first mapping is found. -/
inductive Placement where
  | weighted
  | identity
  deriving DecidableEq, Repr

namespace Placement

/-- The other qubit of a pair that has `q`. -/
def partner? (q : Nat) (p : Pair) : Option Nat :=
  if p.control = q then some p.target else if p.target = q then some p.control else none

/-- The number of pairs that `q` belongs to. -/
def interactions (pairs : List Pair) (q : Nat) : Nat :=
  pairs.countP fun p => (partner? q p).isSome

/-- The number of pairs of `q` whose other qubit is placed. -/
def connections (pairs : List Pair) (placed : List (Nat × Nat)) (q : Nat) : Nat :=
  pairs.countP fun p =>
    match partner? q p with
    | some l => (placed.lookup l).isSome
    | none => false

/-- The claim of a logical qubit to be placed next. -/
structure Urgency where
  qubit : Nat
  connections : Nat
  interactions : Nat

/-- More connections come first, then more interactions. -/
def Urgency.beats (x y : Urgency) : Bool :=
  y.connections < x.connections ||
    (x.connections == y.connections && y.interactions < x.interactions)

/-- The logical qubit to be placed next. -/
def nextQubit? (pairs : List Pair) (placed : List (Nat × Nat)) (unplaced : List Nat) :
    Option Nat :=
  (firstBest Urgency.beats <| unplaced.map fun q =>
    ⟨q, connections pairs placed q, interactions pairs q⟩).map Urgency.qubit

/-- The hops from `site` to the qubits that hold the partners of `q`, added up over its pairs. -/
def span (tables : Array (Array (Option Nat))) (placed : List (Nat × Nat)) (q site : Nat)
    (pairs : List Pair) : Nat :=
  total
    (fun p =>
      match (partner? q p).bind fun l => placed.lookup l with
      | some place => (Device.hopsBetween tables site place).getD Device.unreachableHops
      | none => 0)
    pairs

/-- The number of pairs of `q` that would run against an edge with `q` on `site`. -/
def reversals (d : Device) (placed : List (Nat × Nat)) (q site : Nat) (pairs : List Pair) : Nat :=
  pairs.countP fun p =>
    if p.control = q then
      match placed.lookup p.target with
      | some place => d.isReverseEdge site place
      | none => false
    else if p.target = q then
      match placed.lookup p.control with
      | some place => d.isReverseEdge place site
      | none => false
    else false

/-- What a physical qubit offers to a logical one. -/
structure Offer where
  site : Nat
  span : Nat
  reversals : Nat
  degree : Nat

/-- A shorter span comes first, then fewer reversals, then a higher degree. -/
def Offer.beats (x y : Offer) : Bool :=
  x.span < y.span ||
    (x.span == y.span &&
      (x.reversals < y.reversals || (x.reversals == y.reversals && y.degree < x.degree)))

/-- The physical qubit that suits `q` best. -/
def bestSite? (d : Device) (tables : Array (Array (Option Nat))) (pairs : List Pair)
    (placed : List (Nat × Nat)) (q : Nat) (free : List Nat) : Option Nat :=
  let own := pairs.filter fun p => (partner? q p).isSome
  (firstBest Offer.beats <| free.map fun site =>
    ⟨site, span tables placed q site own, reversals d placed q site own, d.degree site⟩).map
      Offer.site

/-- Place up to `count` further qubits. -/
def placeAll (d : Device) (tables : Array (Array (Option Nat))) (pairs : List Pair) :
    Nat → List (Nat × Nat) → List Nat → List Nat → List (Nat × Nat)
  | 0, placed, _, _ => placed
  | count + 1, placed, unplaced, free =>
    match nextQubit? pairs placed unplaced with
    | none => placed
    | some q =>
      match bestSite? d tables pairs placed q free with
      | none => placed
      | some site =>
        placeAll d tables pairs count ((q, site) :: placed) (unplaced.erase q) (free.erase site)

/-- The mapping that brings interacting qubits together. -/
def weightedMapping (d : Device) (deps : Dependencies) : Except AllocError (List Nat) := do
  deps.validate d.size
  let pairs ← deps.pairs
  let all := List.range d.size
  let placed := placeAll d d.hopTables pairs d.size [] all all
  return all.filterMap fun q => placed.lookup q

/-- The first mapping for a device and its dependencies. -/
def find (placement : Placement) (d : Device) (deps : Dependencies) :
    Except AllocError (List Nat) :=
  match placement with
  | .weighted => weightedMapping d deps
  | .identity => .ok (Arrangement.identity d.size)

end Placement

end QubitAllocation
