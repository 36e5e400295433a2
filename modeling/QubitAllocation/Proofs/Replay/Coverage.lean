import QubitAllocation.Proofs.Replay.Judgement

/-!
# What an accepted solution executes

Replay asks that every step ends in a gate on the pair of its call point. So an accepted solution
has at least one gate for each dependency, and exactly as many only if every step is some swaps and
then its one gate (`numGates_eq_length_iff`).

Nothing keeps a step from having more: wherever the device can run a gate, it may be put in before
the last operation of a step, and replay accepts the longer solution at the price of the gate more
(`Accepted.insert`). `replay_extra_gate` is a solution with a gate that belongs to no dependency.
-/

set_option autoImplicit false

namespace QubitAllocation.Replay

/-! ## Counting gates -/

/-- The number of gates that are no swaps. -/
def numGates (ops : List Operation) : Nat := ops.countP fun op => !op.isSwap

@[simp] theorem numGates_append (ops ops' : List Operation) :
    numGates (ops ++ ops') = numGates ops + numGates ops' :=
  List.countP_append

theorem numGates_singleton {gate : Operation} (h : gate.isSwap = false) : numGates [gate] = 1 := by
  simp [numGates, h]

theorem numGates_eq_zero_iff {ops : List Operation} :
    numGates ops = 0 ↔ ∀ op ∈ ops, op.isSwap = true := by
  simp [numGates, List.countP_eq_zero]

section Steps

variable {ops : List Operation} {p : Pair} {steps : List Step}

/-- Operations that end in a gate on a pair have a gate. -/
theorem EndsIn.numGates_pos (h : EndsIn ops p) : 1 ≤ numGates ops := by
  obtain ⟨front, gate, rfl, hswap, -⟩ := h
  rw [numGates_append, numGates_singleton hswap]
  omega

/-- They have no other one if all operations before it are swaps. -/
theorem EndsIn.numGates_eq_one_iff (h : EndsIn ops p) :
    numGates ops = 1 ↔ ∃ swaps gate, ops = swaps ++ [gate] ∧ (∀ op ∈ swaps, op.isSwap = true) ∧
      gate.isSwap = false ∧ gate.operands = (p.control, p.target) := by
  constructor
  · intro hone
    obtain ⟨front, gate, rfl, hswap, hoperands⟩ := h
    rw [numGates_append, numGates_singleton hswap] at hone
    exact ⟨front, gate, rfl, numGates_eq_zero_iff.1 (by omega), hswap, hoperands⟩
  · rintro ⟨swaps, gate, rfl, hall, hswap, -⟩
    rw [numGates_append, numGates_singleton hswap, numGates_eq_zero_iff.2 hall]

/-- How operations end depends on the last ones only. -/
theorem endsIn_append_iff {front back : List Operation} (hback : back ≠ []) :
    EndsIn (front ++ back) p ↔ EndsIn back p := by
  constructor
  · rintro ⟨rest, gate, hops, hswap, hoperands⟩
    obtain ⟨init, last, rfl⟩ := back.eq_nil_or_concat.resolve_left hback
    rw [List.concat_eq_append, ← List.append_assoc] at hops
    obtain ⟨-, hlast⟩ := List.append_inj' hops rfl
    cases hlast
    exact ⟨init, gate, List.concat_eq_append, hswap, hoperands⟩
  · rintro ⟨rest, gate, rfl, hswap, hoperands⟩
    exact ⟨front ++ rest, gate, (List.append_assoc _ _ _).symm, hswap, hoperands⟩

/-- Steps with a gate each have no fewer gates than steps, and as many only if none has two. -/
theorem length_le_numGates (h : ∀ step ∈ steps, 1 ≤ numGates step.ops) :
    steps.length ≤ numGates (steps.flatMap Step.ops) ∧
      (numGates (steps.flatMap Step.ops) = steps.length ↔
        ∀ step ∈ steps, numGates step.ops = 1) := by
  induction steps with
  | nil => simp [numGates]
  | cons step steps ih =>
    rw [List.forall_mem_cons] at h
    obtain ⟨hle, heq⟩ := ih h.2
    rw [List.flatMap_cons, numGates_append, List.length_cons, List.forall_mem_cons, ← heq]
    -- the first step adds one to the left and at least one to the right
    have hone := h.1
    omega

end Steps

/-! ## Accepted solutions -/

namespace Accepted

variable {d : Device} {deps : Dependencies} {s : Solution} {costs : CostModel} {c : Nat}

/-- There are as many steps as dependencies. -/
theorem length_steps (h : Accepted d deps s costs c) : s.steps.length = deps.length := by
  have hlen := h.covered.length_eq
  simpa using hlen

theorem numGates_step_pos (h : Accepted d deps s costs c) :
    ∀ step ∈ s.steps, 1 ≤ numGates step.ops := by
  intro step hstep
  obtain ⟨dep, -, p, -, -, hends⟩ := h.ends step hstep
  exact hends.numGates_pos

/-- A step with one gate meets its dependency, and the other way round. -/
theorem numGates_eq_one_iff_meets (h : Accepted d deps s costs c) {step : Step}
    (hstep : step ∈ s.steps) :
    numGates step.ops = 1 ↔ ∃ dep ∈ deps, step.Meets dep := by
  constructor
  · intro hone
    obtain ⟨dep, hdep, p, hcall, hp, hends⟩ := h.ends step hstep
    obtain ⟨swaps, gate, hops, hall, hswap, hoperands⟩ := hends.numGates_eq_one_iff.1 hone
    exact ⟨dep, hdep, hcall.symm, p, swaps, gate, hp, hops, hall, hswap, hoperands⟩
  · rintro ⟨dep, hdep, hcall, p, swaps, gate, hp, hops, hall, hswap, hoperands⟩
    have hends := h.endsIn hstep hdep hcall.symm hp
    exact hends.numGates_eq_one_iff.2 ⟨swaps, gate, hops, hall, hswap, hoperands⟩

/-- **An accepted solution has as many gates as dependencies exactly if every step is some swaps
and one gate.** -/
theorem numGates_eq_length_iff (h : Accepted d deps s costs c) :
    numGates s.ops = deps.length ↔ ∀ step ∈ s.steps, ∃ dep ∈ deps, step.Meets dep := by
  -- counted over the steps, there is one gate too many as soon as one step has two
  rw [← h.length_steps, Solution.ops, (length_le_numGates h.numGates_step_pos).2]
  constructor
  · intro hone step hstep
    exact (h.numGates_eq_one_iff_meets hstep).1 (hone step hstep)
  · intro hmeets step hstep
    exact (h.numGates_eq_one_iff_meets hstep).2 (hmeets step hstep)

/-- **A further gate is accepted** wherever it can be run, other than at the end of a step. -/
theorem insert {before later : List Step} {k : Nat} {front back : List Operation}
    {gate : Operation} {M : List Nat} (h : Accepted d deps s costs c)
    (hsteps : s.steps = before ++ ⟨k, front ++ back⟩ :: later) (hback : back ≠ [])
    (hswap : gate.isSwap = false) (hruns : Runs d s.initial (before.flatMap Step.ops ++ front) M)
    (hcan : CanRun d M gate) (hfits : c + costs.price gate < 2 ^ 32) :
    Accepted d deps { s with steps := before ++ ⟨k, front ++ gate :: back⟩ :: later } costs
      (c + costs.price gate) := by
  have hops : s.ops = (before.flatMap Step.ops ++ front) ++ (back ++ later.flatMap Step.ops) := by
    simp [Solution.ops, hsteps]
  refine ⟨h.initial, h.single, h.distinct, ?_, ?_, ?_, ?_, hfits⟩
  · have hcovered := h.covered
    rw [hsteps] at hcovered
    simpa using hcovered
  · -- the gate moves nothing, so the rest can still be run
    obtain ⟨M', hall⟩ := h.runs
    rw [hops] at hall
    obtain ⟨N, hfirst, hrest⟩ := runs_append_iff.1 hall
    obtain rfl := hfirst.unique hruns
    refine ⟨M', ?_⟩
    have hgate : Runs d N (gate :: (back ++ later.flatMap Step.ops)) M' := by
      rw [runs_cons_iff, after_of_not_isSwap hswap]
      exact ⟨hcan, hrest⟩
    have hnew := runs_append_iff.2 ⟨N, hfirst, hgate⟩
    simpa [Solution.ops] using hnew
  · -- the step still ends as it did
    intro step hstep
    rcases List.mem_append.1 hstep with hbefore | hrest
    · exact h.ends step (by simp [hsteps, hbefore])
    · rcases List.mem_cons.1 hrest with rfl | hlater
      · obtain ⟨dep, hdep, p, hcall, hp, hends⟩ :=
          h.ends ⟨k, front ++ back⟩ (by simp [hsteps])
        rw [endsIn_append_iff hback] at hends
        refine ⟨dep, hdep, p, hcall, hp, ?_⟩
        rw [List.append_cons, endsIn_append_iff hback]
        exact hends
      · exact h.ends step (by simp [hsteps, hlater])
  · rw [sum_prices, h.cost_eq, hops]
    simp [Solution.ops]
    omega

end Accepted

end QubitAllocation.Replay

namespace QubitAllocation

open Replay

/-- **Replay checks that every dependency has its gate, not that there is no other.** The steps of
an accepted solution stand for the dependencies one by one, and each ends in a gate on its
dependency's pair. So there are at least as many gates as dependencies, and as many exactly if every
step is some swaps and then that gate. A further gate that can be run where it stands, before the
last operation of a step, is accepted at its price. -/
theorem replay_gates_cover {d : Device} {deps : Dependencies} {s : Solution} {costs : CostModel}
    {c : Nat} (h : replay d deps s costs = .ok c) :
    (deps.map Dependency.callPoint).Nodup ∧
    (s.steps.map Step.callPoint).Perm (deps.map Dependency.callPoint) ∧
    (∀ step ∈ s.steps, ∃ dep ∈ deps, ∃ p,
      dep.callPoint = step.callPoint ∧ dep.pairs = [p] ∧ EndsIn step.ops p) ∧
    deps.length ≤ numGates s.ops ∧
    (numGates s.ops = deps.length ↔ ∀ step ∈ s.steps, ∃ dep ∈ deps, step.Meets dep) ∧
    ∀ before k front back later gate M, s.steps = before ++ ⟨k, front ++ back⟩ :: later →
      back ≠ [] → gate.isSwap = false → Runs d s.initial (before.flatMap Step.ops ++ front) M →
      CanRun d M gate → c + costs.price gate < 2 ^ 32 →
      replay d deps { s with steps := before ++ ⟨k, front ++ gate :: back⟩ :: later } costs =
        .ok (c + costs.price gate) := by
  have haccepted := accepted_of_replay h
  refine ⟨haccepted.distinct, haccepted.covered, haccepted.ends, ?_,
    haccepted.numGates_eq_length_iff, ?_⟩
  · rw [← haccepted.length_steps]
    exact (length_le_numGates haccepted.numGates_step_pos).1
  · intro before k front back later gate M hsteps hback hswap hruns hcan hfits
    exact replay_of_accepted (haccepted.insert hsteps hback hswap hruns hcan hfits)

/-- Two dependencies on a path of three qubits, met by a swap and a gate each; a reversed gate on
the first pair may be put in before the swap. -/
theorem replay_gates_cover_path :
    let d := Device.ofNodup 3 [(0, 1), (1, 2)] (by decide) (by decide)
    let deps : Dependencies := [⟨4, [⟨0, 1⟩]⟩, ⟨7, [⟨0, 2⟩]⟩]
    let s : Solution := ⟨[0, 1, 2], 7, [⟨4, [.cnot 0 1]⟩, ⟨7, [.swap 0 1, .cnot 0 2]⟩]⟩
    let padded : Solution :=
      ⟨[0, 1, 2], 7, [⟨4, [.cnot 0 1]⟩, ⟨7, [.rev 1 0, .swap 0 1, .cnot 0 2]⟩]⟩
    replay d deps s .standard = .ok 7 ∧ numGates s.ops = deps.length ∧
      (∀ step ∈ s.steps, ∃ dep ∈ deps, step.Meets dep) ∧
      replay d deps padded .standard = .ok 11 := by
  intro d deps s padded
  have hreplay : replay d deps s .standard = .ok 7 := by decide +kernel
  obtain ⟨-, -, -, -, hiff, hinsert⟩ := replay_gates_cover hreplay
  have hcnot : CanRun d [0, 1, 2] (.cnot 0 1) :=
    ⟨by decide, by decide, 0, 1, rfl, rfl, List.mem_cons_self⟩
  have hrev : CanRun d [0, 1, 2] (.rev 1 0) :=
    ⟨by decide, by decide, 1, 0, rfl, rfl, by decide, by decide⟩
  refine ⟨hreplay, rfl, hiff.1 rfl, ?_⟩
  exact hinsert [⟨4, [.cnot 0 1]⟩] 7 [] [.swap 0 1, .cnot 0 2] [] (.rev 1 0) [0, 1, 2] rfl
    (by decide) rfl (.cons hcnot (.nil _)) hrev (by decide)

/-- **A gate that belongs to no dependency is accepted**: one dependency and two gates. -/
theorem replay_extra_gate :
    let d := Device.ofNodup 3 [(0, 1), (1, 2)] (by decide) (by decide)
    let deps : Dependencies := [⟨0, [⟨0, 1⟩]⟩]
    let s : Solution := ⟨[0, 1, 2], 0, [⟨0, [.cnot 1 2, .cnot 0 1]⟩]⟩
    deps.validate d.size = .ok () ∧ replay d deps s .standard = .ok 0 ∧
      numGates s.ops = 2 ∧ deps.length = 1 := by
  intro d deps s
  exact ⟨rfl, by decide +kernel, rfl, rfl⟩

end QubitAllocation
