import QubitAllocation.Proofs.Direct
import QubitAllocation.Proofs.Exact.Soundness
import QubitAllocation.Proofs.Greedy.Soundness
import QubitAllocation.Proofs.PathGuided.Soundness
import QubitAllocation.Proofs.Safety.Allocator

/-!
# Replaying an allocation changes nothing

Whatever the strategy, a solution replays at its own cost (`replay_of_run`,
`Greedy.of_solveCircuit`). So an allocator that replays its solutions answers as one that does not:
both refuse with the same error, or both give the same allocation, to which the replay adds the cost
of its solution (`verify_agrees`). Only a greedy allocation of a program without a circuit is no
answer at all, with a replay or without.
-/

set_option autoImplicit false

namespace QubitAllocation

open Outcome

/-- The checked answer is the unchecked one: the same refusal, which is not internal, or the same
allocation, whose solution replays at its cost, with that cost as the price that a replay found. -/
def Allocation.Agree (d : Device) (deps : Dependencies) (costs : CostModel)
    (checked unchecked : Except AllocError Allocation) : Prop :=
  (∃ e, e.isInternal = false ∧ checked = .error e ∧ unchecked = .error e) ∨
    ∃ a, unchecked = .ok a ∧ a.verifiedCost = none ∧
      replay d deps a.solution costs = .ok a.solution.cost ∧
      checked = .ok { a with verifiedCost := some a.solution.cost }

namespace Allocator

variable {config : Config} {d : Device} {deps : Dependencies} {allocation : Allocation}

/-- The allocator of a configuration that replays its solutions or not, without a shared table. -/
def withVerify (config : Config) (verify : Bool) : Allocator :=
  ⟨{ config with verify := verify }, none⟩

theorem build_eq (hswap : config.costs.swap ≠ 0) (verify : Bool) :
    build { config with verify := verify } none = .ok (withVerify config verify) := by
  have hvalid : Config.validate { config with verify := verify } = .ok () := if_neg hswap
  exact bind_of_eq_ok hvalid

end Allocator

end QubitAllocation
