import QubitAllocation.Proofs.Replay.Run
import QubitAllocation.Proofs.TokenSwap

/-!
# Runs as swap walks

A run of operations changes a mapping by its swaps alone. Seen from the physical qubits, each of
them exchanges the tokens of two coupled qubits, so a run is a swap walk between the inverses of its
two mappings, with as many steps as the run has swaps (`Runs.swapWalk`).
-/

set_option autoImplicit false

namespace QubitAllocation.Replay

open Arrangement Search

variable {d : Device} {M M' : List Nat}

/-- A swap that can be run is one step between the inverse mappings. -/
theorem inverse_after_swap {a b : Nat} (hM : IsArrangement d.size M) (h : CanRun d M (.swap a b)) :
    inverse (after M (.swap a b)) ∈ d.swapNext (inverse M) := by
  obtain ⟨-, -, u, v, hu, hv, hc⟩ := h
  rw [Device.mem_swapNext_iff hM.inverse.length_eq]
  exact ⟨u, v, hc, inverse_exchange hM hu hv⟩

/-- **A run is a swap walk** with as many steps as it has swaps. -/
theorem Runs.swapWalk {ops : List Operation} (h : Runs d M ops M') (hM : IsArrangement d.size M) :
    Walk d.swapNext (inverse M) (ops.countP Operation.isSwap) (inverse M') := by
  induction h with
  | nil M => exact .refl
  | @cons M M' op ops hop _ ih =>
    have hrest := ih (isArrangement_after hM op)
    cases hswap : op.isSwap with
    | false =>
      rw [after_of_not_isSwap hswap] at hrest
      rw [List.countP_cons_of_neg (by simp [hswap])]
      exact hrest
    | true =>
      rw [List.countP_cons_of_pos hswap]
      cases op with
      | swap a b => exact walk_succ_iff_head.2 ⟨_, inverse_after_swap hM hop, hrest⟩
      | cnot a b => cases hswap
      | rev a b => cases hswap
      | longCnot a b w => cases hswap

end QubitAllocation.Replay
