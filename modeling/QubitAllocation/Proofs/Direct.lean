import QubitAllocation.Proofs.Gate
import QubitAllocation.Proofs.Replay.Judgement
import QubitAllocation.Strategy.Direct

/-!
# Direct solutions replay at their cost

The mapping never changes, so every gate is run where it was chosen, and one gate on its pair meets
each dependency (`solves_of_build`).
-/

set_option autoImplicit false

namespace QubitAllocation.Direct

open Arrangement Outcome Replay

variable {d : Device} {M : List Nat}

/-- A step meets its dependency by one gate and leaves the mapping as it is. -/
theorem of_step {dep : Dependency} {st : Step} (hM : IsArrangement d.size M)
    (h : step d M dep = .ok st) : st.Meets dep ∧ Runs d M st.ops M := by
  obtain ⟨p, hp, h⟩ := bind_eq_ok_iff.1 h
  obtain ⟨gate, hgate, h⟩ := bind_eq_ok_iff.1 h
  obtain ⟨u, hu, hgate⟩ := bind_eq_ok_iff.1 hgate
  obtain ⟨v, hv, hgate⟩ := bind_eq_ok_iff.1 hgate
  cases h
  rw [lookup_eq_ok_iff] at hu hv
  rw [Dependency.pair_eq_ok_iff] at hp
  have hrealizes := Gate.realizes_of_between hgate
  constructor
  · exact ⟨rfl, p, [], gate, hp, rfl, List.forall_mem_nil _, hrealizes.not_swap,
      hrealizes.operands⟩
  · apply Runs.cons (hrealizes.canRun hM hu hv)
    rw [after_of_not_isSwap hrealizes.not_swap]
    exact .nil M

theorem of_steps {deps : Dependencies} {steps : List Step} (hM : IsArrangement d.size M)
    (h : List.Forall₂ (fun dep st => step d M dep = .ok st) deps steps) :
    List.Forall₂ (fun dep st => st.Meets dep) deps steps ∧
      Runs d M (steps.flatMap Step.ops) M := by
  induction h with
  | nil => exact ⟨.nil, .nil M⟩
  | cons hst _ ih =>
    obtain ⟨hmeets, hruns⟩ := of_step hM hst
    refine ⟨.cons hmeets ih.1, ?_⟩
    rw [List.flatMap_cons, runs_append_iff]
    exact ⟨M, hruns, ih.2⟩

/-- A solution keeps the mapping, has the step of each dependency, and costs what they cost. -/
theorem build_cases {costs : CostModel} {deps : Dependencies} {s : Solution}
    (h : build d costs deps M = .ok s) :
    IsArrangement d.size M ∧ List.Forall₂ (fun dep st => step d M dep = .ok st) deps s.steps ∧
      s.initial = M ∧ s.cost = costs.total s.ops ∧ s.cost < 2 ^ 32 := by
  obtain ⟨⟨⟩, hcheck, h⟩ := bind_eq_ok_iff.1 h
  obtain ⟨⟨⟩, -, h⟩ := bind_eq_ok_iff.1 h
  obtain ⟨steps, hsteps, h⟩ := bind_eq_ok_iff.1 h
  obtain ⟨cost, hcost, h⟩ := bind_eq_ok_iff.1 h
  cases h
  obtain ⟨hfits, rfl⟩ := narrowCost_eq_ok_iff.1 hcost
  exact ⟨checkMapping_eq_ok_iff.1 hcheck, mapM_eq_ok_iff.1 hsteps, rfl, rfl, hfits⟩

/-- **A direct solution solves the dependencies.** -/
theorem solves_of_build {costs : CostModel} {deps : Dependencies} {s : Solution}
    (h : build d costs deps M = .ok s) : Solves d costs deps s := by
  obtain ⟨hM, hsteps, rfl, hcost, hfits⟩ := build_cases h
  obtain ⟨hmeets, hruns⟩ := of_steps hM hsteps
  exact ⟨hM, ⟨_, hruns⟩, hmeets, hcost.trans (total_eq_sum costs.price _), hfits⟩

end QubitAllocation.Direct
