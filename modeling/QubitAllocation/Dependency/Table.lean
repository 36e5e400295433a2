import QubitAllocation.Dependency.Basic

/-!
# Pairs by call point

The pair of each call point, for dependencies with one pair each. A later dependency at the same
call point replaces an earlier one.
-/

namespace QubitAllocation.Dependencies

/-- Enter a pair under a call point, replacing what was there. -/
def enter (table : List (Nat × Pair)) (callPoint : Nat) (pair : Pair) : List (Nat × Pair) :=
  table.filter (fun entry => entry.1 != callPoint) ++ [(callPoint, pair)]

/-- The pair of each call point. -/
def table (deps : Dependencies) : Except AllocError (List (Nat × Pair)) :=
  deps.foldlM
    (fun entries d => do
      let p ← d.pair
      return enter entries d.callPoint p)
    []

end QubitAllocation.Dependencies
