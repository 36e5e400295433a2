import QubitAllocation.Plan.Cost

/-!
# Solutions

A solution has the mapping before the first gate, a cost, and one step of operations for each
dependency in the order in which the steps are to be run.
-/

namespace QubitAllocation

/-- The outcome of an allocation. -/
structure Solution where
  initial : List Nat
  cost : Nat
  steps : List Step
  deriving DecidableEq, Repr

namespace Solution

/-- All operations in the order in which they are run. -/
def ops (s : Solution) : List Operation := s.steps.flatMap Step.ops

/-- The number of swaps. -/
def numSwaps (s : Solution) : Nat := s.ops.countP Operation.isSwap

/-- The number of operations. -/
def numOps (s : Solution) : Nat := s.ops.length

/-- The text of a step. -/
def stepText (step : Step) : String :=
  s!"  [{step.callPoint}] " ++ String.intercalate " " (step.ops.map Operation.text) ++ "\n"

/-- The text of a solution, one step to a line. -/
def text (s : Solution) : String :=
  "initial: " ++ Text.listing s.initial ++ s!"\ncost: {s.cost}\n" ++
    String.join (s.steps.map stepText)

end Solution

end QubitAllocation
