import QubitAllocation.Dependency.Basic
import QubitAllocation.Layout
import QubitAllocation.Strategy.Gate

/-!
# Direct allocation

The mapping never changes: every dependency becomes the one gate that its pair allows.
-/

namespace QubitAllocation.Direct

/-- The step of a dependency. -/
def step (d : Device) (mapping : List Nat) (dep : Dependency) : Except AllocError Step := do
  let p ← dep.pair
  let gate ← Gate.under d mapping p
  return ⟨dep.callPoint, [gate]⟩

/-- Allocate under a fixed mapping. -/
def build (d : Device) (costs : CostModel) (deps : Dependencies) (initial : List Nat) :
    Except AllocError Solution := do
  checkMapping initial d.size
  deps.validate d.size
  let steps ← deps.mapM (step d initial)
  let cost ← narrowCost (costs.total (steps.flatMap Step.ops))
  return ⟨initial, cost, steps⟩

end QubitAllocation.Direct
