import QubitAllocation.Dependency.Table
import QubitAllocation.Device.Basic
import QubitAllocation.Layout
import QubitAllocation.Plan.Solution

/-!
# Replay

A solution is checked by running it: each operation must be possible on the device where its
operands are at that moment, each step must end in a gate on the pair of its call point, and each
dependency must have one step. The price of each operation is added as it is run, and `replay` gives
the price of them all.
-/

namespace QubitAllocation

namespace Replay

/-- Where the qubits are, and what has been spent on the way there. -/
structure Progress where
  layout : Layout
  spent : Nat

/-- Where an operation leads, if the device allows it, with its price. -/
def runOp (d : Device) (costs : CostModel) (callPoint : Nat) (now : Progress) (op : Operation) :
    Except AllocError Progress :=
  let (a, b) := op.operands
  if d.size ≤ a ∨ d.size ≤ b then .error (.replay callPoint (.qubitOutside op d.size))
  else do
    let u ← AllocError.lookup (now.layout.physical? a)
    let v ← AllocError.lookup (now.layout.physical? b)
    match op with
    | .swap _ _ =>
      if d.isAdjacent u v then do
        let layout ← AllocError.lookup (now.layout.exchangeLogical a b)
        return ⟨layout, now.spent + costs.swap⟩
      else .error (.replay callPoint (.swapNotAdjacent op u v))
    | .cnot _ _ =>
      if d.hasEdge u v then .ok now else .error (.replay callPoint (.notNative op u v))
    | .rev _ _ =>
      if d.isReverseEdge u v then .ok ⟨now.layout, now.spent + costs.reverse⟩
      else .error (.replay callPoint (.notReverse op u v))
    | .longCnot _ _ bridge =>
      if d.isAdjacent u bridge && d.isAdjacent bridge v then
        .ok ⟨now.layout, now.spent + costs.longCnot⟩
      else .error (.replay callPoint (.bridgeNotAdjacent op u v))

/-- The last operation of a step must be a gate on the wanted pair. -/
def checkFinal (pair : Pair) (step : Step) : Except AllocError Unit :=
  match step.ops.getLast? with
  | some op =>
    if !op.isSwap && op.operands == (pair.control, pair.target) then .ok ()
    else .error (.replay step.callPoint (.wrongFinalGate op pair))
  | none => .error (.replay step.callPoint (.noGate pair))

/-- The progress and the pairs still to be met. -/
structure State extends Progress where
  pending : List (Nat × Pair)

/-- Run one step. -/
def runStep (d : Device) (costs : CostModel) (state : State) (step : Step) :
    Except AllocError State :=
  match state.pending.lookup step.callPoint with
  | none => .error (.replay step.callPoint .unknownCallPoint)
  | some pair => do
    let now ← step.ops.foldlM (runOp d costs step.callPoint) state.toProgress
    checkFinal pair step
    return ⟨now, state.pending.filter fun entry => entry.1 != step.callPoint⟩

/-- Every pair must have been met; the lowest call point left is reported. -/
def checkCovered (pending : List (Nat × Pair)) : Except AllocError Unit :=
  match (pending.map Prod.fst).min? with
  | some callPoint => .error (.replay callPoint .notCovered)
  | none => .ok ()

/-- There must be as many steps as dependencies. -/
def checkCount (deps : Dependencies) (steps : List Step) : Except AllocError Unit :=
  if steps.length = deps.length then .ok ()
  else
    .error (.replay ((steps.head?.map Step.callPoint).getD 0)
      (.stepCount steps.length deps.length))

end Replay

open Replay in
/-- Run a solution on a device and price its operations. -/
def replay (d : Device) (deps : Dependencies) (s : Solution) (costs : CostModel) :
    Except AllocError Nat := do
  checkMapping s.initial d.size
  let pending ← deps.table
  checkCount deps s.steps
  let layout ← Layout.ofMapping s.initial
  let final ← s.steps.foldlM (runStep d costs) ⟨⟨layout, 0⟩, pending⟩
  checkCovered final.pending
  narrowCost final.spent

end QubitAllocation
