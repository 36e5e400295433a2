/-!
# Search with a queue

A search goes out from a root. It takes states from a queue and looks at their successors in order;
a successor that is new is recorded and joins the queue. States are recorded in arrays under an
index: the number of steps to each, which is the least, and where the last of these steps was taken,
so that the way to a state can be followed back (`retrace`). A state whose index lies beyond the end
of the arrays ends the search without an answer.
-/

namespace QubitAllocation.Search

variable {α : Type}

/-- What has been recorded by index, and the states from which to go on: first those `ahead`, then
those that came `later`, the last of them first in its list. An origin is the index of the state
from which the last step was taken, with the place of that step. -/
structure Progress (α : Type) where
  depths : Array (Option Nat)
  origins : Array (Option (Nat × Nat))
  ahead : List α
  later : List α

namespace Progress

/-- The next state of the queue, and the search without it in the queue. -/
def pop? (p : Progress α) : Option (α × Progress α) :=
  match p.ahead with
  | x :: rest => some (x, { p with ahead := rest })
  | [] =>
    match p.later.reverse with
    | x :: rest => some (x, { p with ahead := rest, later := [] })
    | [] => none

/-- Record a new state and put it at the end of the queue. -/
def record (p : Progress α) (index depth : Nat) (origin : Nat × Nat) (x : α) : Progress α where
  depths := p.depths.setIfInBounds index (some depth)
  origins := p.origins.setIfInBounds index (some origin)
  ahead := p.ahead
  later := x :: p.later

end Progress

/-- Look at the successors, with their places, of the state with the index `source`, and record the
new ones at `depth`. The flag says that one of them is a goal, at which the search stops. -/
def scan (index : α → Nat) (goal : α → Bool) (source depth : Nat) :
    List (α × Nat) → Progress α → Option (Bool × Progress α)
  | [], p => some (false, p)
  | (x, place) :: rest, p =>
    match p.depths[index x]? with
    | none => none
    | some (some _) => scan index goal source depth rest p
    | some none =>
      let p := p.record (index x) depth (source, place) x
      if goal x then some (true, p) else scan index goal source depth rest p

/-- Take at most `fuel` states from the queue, up to the first goal. -/
def loop (index : α → Nat) (next : α → List α) (goal : α → Bool) :
    Nat → Progress α → Option (Bool × Progress α)
  | 0, p => some (false, p)
  | fuel + 1, p =>
    match p.pop? with
    | none => some (false, p)
    | some (x, p) => do
      let depth ← (p.depths[index x]?).join
      let (found, p) ← scan index goal (index x) (depth + 1) (next x).zipIdx p
      if found then return (true, p) else loop index next goal fuel p

/-- A search that has found its root only. -/
def start (size : Nat) (index : α → Nat) (root : α) : Option (Progress α) :=
  if index root < size then
    some
      { depths := (Array.replicate size none).setIfInBounds (index root) (some 0)
        origins := Array.replicate size none
        ahead := [root]
        later := [] }
  else none

/-- Search from a root up to the first goal, among states with an index below `size`. No state joins
the queue twice, so there is fuel for all of them. -/
def run (size : Nat) (index : α → Nat) (next : α → List α) (goal : α → Bool) (root : α) :
    Option (Bool × Progress α) :=
  (start size index root).bind (loop index next goal size)

/-- The least number of steps from a root to each of the states with an index below `size`; `none`
where no number of steps leads. -/
def depths? (size : Nat) (index : α → Nat) (next : α → List α) (root : α) :
    Option (Array (Option Nat)) :=
  (run size index next (fun _ => false) root).map fun answer => answer.2.depths

/-- The origins of the steps that lead from the root to the state with the given index. -/
def retrace (origins : Array (Option (Nat × Nat))) : Nat → Nat → List (Nat × Nat)
  | 0, _ => []
  | fuel + 1, index =>
    match (origins[index]?).join with
    | some origin => retrace origins fuel origin.1 ++ [origin]
    | none => []

end QubitAllocation.Search
