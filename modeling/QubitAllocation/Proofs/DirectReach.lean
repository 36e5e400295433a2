import QubitAllocation.Proofs.Direct
import QubitAllocation.Proofs.Reach

/-!
# What direct allocation answers

Under a fixed mapping the distances of the device decide everything. A dependency has a step exactly
if its qubits are at distance at most two (`InReach`), and then the step is the one gate that the
distance calls for (`StepFor`). If all dependencies are in reach, the allocation is refused for its
price only; otherwise it is refused for the first one that is not (`build_outcomes`), and the
refusal carries the entry of its qubits in the matrix of distances (`build_decided_by_distance`).
-/

set_option autoImplicit false

namespace QubitAllocation.Direct

open Arrangement Outcome Replay

/-- The qubits of the dependency are at distance at most two under the mapping. -/
def InReach (d : Device) (M : List Nat) (dep : Dependency) : Prop :=
  ∃ p u v, dep.pairs = [p] ∧ M[p.control]? = some u ∧ M[p.target]? = some v ∧
    d.graph.Reachable u v ∧ d.graph.dist u v ≤ 2

/-- The step stands at the dependency's call point and is the one gate that is called for. -/
def StepFor (d : Device) (M : List Nat) (dep : Dependency) (st : Step) : Prop :=
  ∃ p gate, dep.pairs = [p] ∧ Gate.CalledAt d M p gate ∧ st = ⟨dep.callPoint, [gate]⟩

/-- The dependency is refused: its qubits are three or more hops apart, and their entry in the
matrix of distances is reported, or they have no route. -/
def RefusedFor (d : Device) (M : List Nat) (dep : Dependency) (e : AllocError) : Prop :=
  ∃ p u v x, dep.pairs = [p] ∧ M[p.control]? = some u ∧ M[p.target]? = some v ∧
    d.matrixHops? u v = some x ∧ 3 ≤ x ∧
    e = if x = 2 ^ 32 - 1 then .device (.unreachable u v) else .outOfBridgeReach u v x

/-! ## One dependency -/

section Steps

variable {d : Device} {M : List Nat} {dep : Dependency} {p : Pair} {u v : Nat} {st : Step}

/-- The step of a dependency is the gate between its qubits. -/
theorem step_eq (hp : dep.pairs = [p]) (hu : M[p.control]? = some u) (hv : M[p.target]? = some v) :
    step d M dep = Gate.between d p u v >>= fun gate => pure ⟨dep.callPoint, [gate]⟩ := by
  have hunder : Gate.under d M p = Gate.between d p u v := by
    rw [Gate.under, hu, hv]
    rfl
  rw [step, bind_of_eq_ok (Dependency.pair_eq_ok_iff.2 hp), hunder]

/-- A step is the one that the couplings call for. -/
theorem stepFor_of_step (h : step d M dep = .ok st) : StepFor d M dep st := by
  obtain ⟨p, hp, h⟩ := bind_eq_ok_iff.1 h
  obtain ⟨gate, hgate, h⟩ := bind_eq_ok_iff.1 h
  obtain ⟨u, hu, hgate⟩ := bind_eq_ok_iff.1 hgate
  obtain ⟨v, hv, hgate⟩ := bind_eq_ok_iff.1 hgate
  rw [lookup_eq_ok_iff] at hu hv
  have hcalled : Gate.CalledAt d M p gate := ⟨u, v, hu, hv, Gate.calledFor_of_between hgate⟩
  exact ⟨p, gate, Dependency.pair_eq_ok_iff.1 hp, hcalled, (pure_eq_ok_iff.1 h).symm⟩

/-- Only a dependency in reach has a step. -/
theorem StepFor.inReach (h : StepFor d M dep st) : InReach d M dep := by
  obtain ⟨p, gate, hp, ⟨u, v, hu, hv, hcalled⟩, -⟩ := h
  exact ⟨p, u, v, hp, hu, hv, hcalled.near⟩

/-- What is refused for its distance is no overflow of the cost. -/
theorem RefusedFor.ne_costOverflow {e : AllocError} (h : RefusedFor d M dep e) (total : Nat) :
    e ≠ .costOverflow total := by
  obtain ⟨p, u, v, x, -, -, -, -, -, rfl⟩ := h
  split_ifs <;> simp

variable (hM : IsArrangement d.size M) (hvalid : dep.validate d.size = .ok ())

include hM hvalid

/-- The mapping puts the qubits of a valid dependency on two qubits. -/
theorem exists_ends :
    ∃ p u v, dep.pairs = [p] ∧ M[p.control]? = some u ∧ M[p.target]? = some v ∧ u ≠ v := by
  obtain ⟨p, hp, hcontrol, htarget, hne⟩ := Dependency.validate_eq_ok_iff.1 hvalid
  obtain ⟨u, hu⟩ := hM.exists_entry hcontrol
  obtain ⟨v, hv⟩ := hM.exists_entry htarget
  refine ⟨p, u, v, hp, hu, hv, ?_⟩
  rintro rfl
  exact hne (hM.place_unique hu hv)

/-- A valid dependency has a step, or it is out of reach and is refused for its distance. -/
theorem step_cases (hsize : d.size < 2 ^ 32) :
    (∃ st, step d M dep = .ok st) ∨
      ∃ e, step d M dep = .error e ∧ ¬ InReach d M dep ∧ RefusedFor d M dep e := by
  obtain ⟨p, u, v, hp, hu, hv, hne⟩ := exists_ends hM hvalid
  have hu' := hM.entry_lt hu
  have hv' := hM.entry_lt hv
  rw [step_eq hp hu hv]
  by_cases hnear : d.graph.Reachable u v ∧ d.graph.dist u v ≤ 2
  · obtain ⟨gate, hgate⟩ := Gate.exists_between p hu' hv' hne hnear.1 hnear.2
    rw [hgate]
    exact Or.inl ⟨_, rfl⟩
  · obtain ⟨x, hx, hfar, hrefused⟩ := Gate.between_of_beyond hsize p hu' hv' hnear
    rw [hrefused]
    refine Or.inr ⟨_, rfl, ?_, p, u, v, x, hp, hu, hv, hx, hfar, rfl⟩
    -- the dependency has one pair, and the mapping one place for each of its qubits
    rintro ⟨q, a, b, hq, ha, hb, hclose⟩
    obtain rfl : p = q := by simpa [hp] using hq
    obtain rfl : u = a := by simpa [hu] using ha
    obtain rfl : v = b := by simpa [hv] using hb
    exact hnear hclose

end Steps

/-! ## All dependencies -/

section Builds

variable {d : Device} {costs : CostModel} {deps : Dependencies} {M : List Nat}
  (hM : IsArrangement d.size M) (hvalid : deps.validate d.size = .ok ())

include hM hvalid

/-- Past the checks, the allocation is its steps and their price. -/
theorem build_eq_of_valid (costs : CostModel) :
    build d costs deps M = deps.mapM (step d M) >>= fun steps =>
      narrowCost (costs.total (steps.flatMap Step.ops)) >>= fun cost =>
        pure ⟨M, cost, steps⟩ := by
  rw [build, bind_of_eq_ok (checkMapping_eq_ok_iff.2 hM), bind_of_eq_ok hvalid]

/-- All dependencies have a step, or the first one without is out of reach. -/
theorem steps_cases (hsize : d.size < 2 ^ 32) :
    (∃ steps, deps.mapM (step d M) = .ok steps) ∨
      ∃ before dep after e, deps = before ++ dep :: after ∧ (∀ y ∈ before, InReach d M y) ∧
        ¬ InReach d M dep ∧ RefusedFor d M dep e ∧ deps.mapM (step d M) = .error e := by
  cases hsteps : deps.mapM (step d M) with
  | ok steps => exact Or.inl ⟨steps, rfl⟩
  | error e =>
    right
    obtain ⟨before, dep, after, hsplit, hbefore, hdep⟩ := mapM_eq_error_iff.1 hsteps
    have hmem : dep ∈ deps := by simp [hsplit]
    have hvalidDep : dep.validate d.size = .ok () := forM_eq_ok_iff.1 hvalid dep hmem
    refine ⟨before, dep, after, e, hsplit, ?_, ?_⟩
    · intro y hy
      obtain ⟨st, hst⟩ := hbefore y hy
      exact (stepFor_of_step hst).inReach
    · rcases step_cases hM hvalidDep hsize with ⟨st, hst⟩ | ⟨e', he', hout, hrefused⟩
      · rw [hdep] at hst
        cases hst
      · rw [hdep] at he'
        cases he'
        exact ⟨hout, hrefused, rfl⟩

/-- **The three outcomes of a direct allocation**: a solution, or steps whose price is too large, or
the refusal of the first dependency out of reach. -/
theorem build_outcomes (hsize : d.size < 2 ^ 32) (costs : CostModel) :
    (∃ s, build d costs deps M = .ok s) ∨
    (∃ steps, List.Forall₂ (StepFor d M) deps steps ∧
      2 ^ 32 ≤ costs.total (steps.flatMap Step.ops) ∧
      build d costs deps M = .error (.costOverflow (costs.total (steps.flatMap Step.ops)))) ∨
    ∃ before dep after e, deps = before ++ dep :: after ∧ (∀ y ∈ before, InReach d M y) ∧
      ¬ InReach d M dep ∧ RefusedFor d M dep e ∧ build d costs deps M = .error e := by
  rw [build_eq_of_valid hM hvalid]
  rcases steps_cases hM hvalid hsize with
    ⟨steps, hsteps⟩ | ⟨before, dep, after, e, hsplit, hbefore, hout, hrefused, herror⟩
  · rw [bind_of_eq_ok hsteps]
    rcases Nat.lt_or_ge (costs.total (steps.flatMap Step.ops)) (2 ^ 32) with hfits | hlarge
    · rw [bind_of_eq_ok (narrowCost_eq_ok_iff.2 ⟨hfits, rfl⟩)]
      exact Or.inl ⟨_, rfl⟩
    · rw [mapM_eq_ok_iff] at hsteps
      refine Or.inr (Or.inl ⟨steps, hsteps.imp fun _ _ => stepFor_of_step, hlarge, ?_⟩)
      rw [narrowCost_of_le hlarge]
      rfl
  · rw [herror]
    exact Or.inr (Or.inr ⟨before, dep, after, e, hsplit, hbefore, hout, hrefused, rfl⟩)

end Builds

/-- All dependencies with a step are in reach. -/
theorem inReach_of_steps {d : Device} {M : List Nat} {deps : Dependencies} {steps : List Step}
    (h : List.Forall₂ (StepFor d M) deps steps) : ∀ dep ∈ deps, InReach d M dep := by
  intro dep hdep
  obtain ⟨st, -, hst⟩ := exists_of_forall₂ h.flip hdep
  exact StepFor.inReach hst

/-- A solution keeps the mapping, has the gates that are called for, costs their prices, and replays
at that cost. -/
theorem of_build {d : Device} {costs : CostModel} {M : List Nat} {deps : Dependencies}
    {s : Solution} (h : build d costs deps M = .ok s) :
    s.initial = M ∧ List.Forall₂ (StepFor d M) deps s.steps ∧
      s.cost = (s.ops.map costs.price).sum ∧
      ((deps.map Dependency.callPoint).Nodup → replay d deps s costs = .ok s.cost) := by
  obtain ⟨-, hsteps, hkept, -⟩ := build_cases h
  have hsolves := solves_of_build h
  exact ⟨hkept, hsteps.imp fun _ _ => stepFor_of_step, hsolves.cost, hsolves.replay_eq⟩

/-- **The distances decide a direct allocation.** It succeeds or overflows exactly if all
dependencies are in reach under the mapping.

A solution keeps the mapping, has the gate that the couplings call for as the one operation of each
step, costs the sum of their prices, and replays at that cost if the call points are distinct. An
overflow reports the sum. Otherwise the first dependency that is out of reach is refused, with its
entry in the matrix of distances. -/
theorem build_decided_by_distance (d : Device) (costs : CostModel) (deps : Dependencies)
    (initial : List Nat) (hsize : d.size < 2 ^ 32) (hinitial : IsArrangement d.size initial)
    (hvalid : deps.validate d.size = .ok ()) :
    ((∃ s, build d costs deps initial = .ok s) ∨
        (∃ total, build d costs deps initial = .error (.costOverflow total)) ↔
      ∀ dep ∈ deps, InReach d initial dep) ∧
    (∀ s, build d costs deps initial = .ok s →
      s.initial = initial ∧ List.Forall₂ (StepFor d initial) deps s.steps ∧
      s.cost = (s.ops.map costs.price).sum ∧
      ((deps.map Dependency.callPoint).Nodup → replay d deps s costs = .ok s.cost)) ∧
    (∀ total, build d costs deps initial = .error (.costOverflow total) →
      2 ^ 32 ≤ total ∧ ∃ steps, List.Forall₂ (StepFor d initial) deps steps ∧
        total = ((steps.flatMap Step.ops).map costs.price).sum) ∧
    ((∃ dep ∈ deps, ¬ InReach d initial dep) →
      ∃ before dep after e, deps = before ++ dep :: after ∧ (∀ y ∈ before, InReach d initial y) ∧
        ¬ InReach d initial dep ∧ RefusedFor d initial dep e ∧
        build d costs deps initial = .error e) := by
  rcases build_outcomes hinitial hvalid hsize costs with ⟨s, hs⟩ | ⟨steps, hsteps, hlarge, hover⟩ |
    ⟨before, dep, after, e, hsplit, hbefore, hout, hrefused, herror⟩
  · have hall := inReach_of_steps (of_build hs).2.1
    refine ⟨iff_of_true (Or.inl ⟨s, hs⟩) hall, fun _ => of_build, ?_, ?_⟩
    · intro total htotal
      rw [hs] at htotal
      cases htotal
    · rintro ⟨dep, hdep, hout⟩
      exact absurd (hall dep hdep) hout
  · have hall := inReach_of_steps hsteps
    refine ⟨iff_of_true (Or.inr ⟨_, hover⟩) hall, fun _ => of_build, ?_, ?_⟩
    · intro total htotal
      rw [hover] at htotal
      cases htotal
      exact ⟨hlarge, steps, hsteps, total_eq_sum _ _⟩
    · rintro ⟨dep, hdep, hout⟩
      exact absurd (hall dep hdep) hout
  · have hmem : dep ∈ deps := by simp [hsplit]
    have hnot : ∀ total, build d costs deps initial ≠ .error (.costOverflow total) := by
      intro total
      rw [herror]
      simpa using hrefused.ne_costOverflow total
    refine ⟨iff_of_false ?_ fun hall => hout (hall dep hmem), fun _ => of_build, ?_, ?_⟩
    · rintro (⟨s, hs⟩ | ⟨total, htotal⟩)
      · rw [herror] at hs
        cases hs
      · exact hnot total htotal
    · intro total htotal
      exact absurd htotal (hnot total)
    · rintro -
      exact ⟨before, dep, after, e, hsplit, hbefore, hout, hrefused, herror⟩

/-- On a path of five qubits beside a lone one, whose first edge runs both ways and whose second
runs back: three dependencies in reach are met by a plain gate, a reversed one and one over a qubit;
of two out of reach the first is refused, with its distance of three or for want of a route. -/
theorem build_decided_by_distance_path :
    let d := Device.ofNodup 6 [(0, 1), (1, 0), (2, 1), (2, 3), (3, 4)] (by decide) (by decide)
    let initial := [1, 0, 2, 3, 4, 5]
    let deps : Dependencies := [⟨9, [⟨0, 1⟩]⟩, ⟨4, [⟨0, 2⟩]⟩, ⟨7, [⟨1, 2⟩]⟩]
    let far : Dependency := ⟨3, [⟨1, 3⟩]⟩
    let apart : Dependency := ⟨5, [⟨0, 5⟩]⟩
    d.size < 2 ^ 32 ∧ IsArrangement d.size initial ∧ deps.validate d.size = .ok () ∧
      (deps ++ [far, apart]).validate d.size = .ok () ∧
      (∀ dep ∈ deps, InReach d initial dep) ∧
      (∃ s, build d .standard deps initial = .ok s ∧
        s.ops = [.cnot 0 1, .rev 0 2, .longCnot 1 2 1] ∧ replay d deps s .standard = .ok s.cost) ∧
      (¬ ∀ dep ∈ deps ++ [far, apart], InReach d initial dep) ∧
      build d .standard (deps ++ [far, apart]) initial = .error (.outOfBridgeReach 0 3 3) ∧
      build d .standard (deps ++ [apart, far]) initial = .error (.device (.unreachable 1 5)) := by
  intro d initial deps far apart
  have hsize : d.size < 2 ^ 32 := by decide
  have hinitial : IsArrangement d.size initial := isPermutation_iff.1 (by decide)
  have hvalid : deps.validate d.size = .ok () := by decide
  have hvalidFar : (deps ++ [far, apart]).validate d.size = .ok () := by decide
  have hbuild : build d .standard deps initial = .ok ⟨initial, 14,
      [⟨9, [.cnot 0 1]⟩, ⟨4, [.rev 0 2]⟩, ⟨7, [.longCnot 1 2 1]⟩]⟩ := by decide +kernel
  have hfar : build d .standard (deps ++ [far, apart]) initial =
      .error (.outOfBridgeReach 0 3 3) := by decide +kernel
  have hapart : build d .standard (deps ++ [apart, far]) initial =
      .error (.device (.unreachable 1 5)) := by decide +kernel
  obtain ⟨hreach, hsolution, -, -⟩ :=
    build_decided_by_distance d .standard deps initial hsize hinitial hvalid
  obtain ⟨hreachFar, -, -, -⟩ :=
    build_decided_by_distance d .standard (deps ++ [far, apart]) initial hsize hinitial hvalidFar
  obtain ⟨-, -, -, hreplay⟩ := hsolution _ hbuild
  refine ⟨hsize, hinitial, hvalid, hvalidFar, hreach.1 (Or.inl ⟨_, hbuild⟩),
    ⟨_, hbuild, rfl, hreplay (by decide)⟩, ?_, hfar, hapart⟩
  rw [← hreachFar, hfar]
  rintro (⟨s, hs⟩ | ⟨total, htotal⟩)
  · cases hs
  · cases htotal

end QubitAllocation.Direct
