import QubitAllocation.Proofs.Safety.PathGuided

/-!
# Only the last occurrence of a pair pays for its direction

As long as a pair is still to come again, its gate is a plain one (`getLast?_ops_of_meet`): it is
never bridged, its target is brought next to its control, and if it then runs against its edge it is
turned round. A reversed gate or a bridge is left to the last occurrence of the pair, whatever
chains, folds and turns have moved its qubits in between (`build_pays_at_last_occurrence`).

Whether a pair comes again is asked of the dependencies that are left. Counting its occurrences
beforehand and counting down along the run gives the same steps (`runCounted_tally`).
-/

set_option autoImplicit false

namespace QubitAllocation

open Arrangement Outcome

/-- Some dependency after place `i` is on the pair. -/
def Dependencies.ComesAgain (deps : Dependencies) (i : Nat) (p : Pair) : Prop :=
  ∃ j dep, i < j ∧ deps[j]? = some dep ∧ dep.pairs = [p]

namespace PathGuided

/-! ## Meeting a pair that comes again -/

section Meeting

variable {d : Device} {costs : CostModel} {p : Pair} {s s' : State}

/-- On coupled qubits a pair that comes again gets a plain gate. -/
theorem getLast?_ops_of_settle (h : settle d costs true p s = .ok s') :
    s'.ops.getLast? = some (.cnot p.control p.target) := by
  simp only [settle, bind_eq_ok_iff] at h
  obtain ⟨u, -, v, -, h⟩ := h
  split_ifs at h with huv hvu hused
  · cases h
    simp [State.emit]
  · -- turned round by a swap, the pair runs along its edge
    obtain ⟨layout, -, h⟩ := bind_eq_ok_iff.1 h
    cases h
    simp [State.emit]
  · -- turned round from the start
    obtain ⟨layout, -, h⟩ := bind_eq_ok_iff.1 h
    cases h
    simp [State.emit]

/-- **A pair that comes again gets a plain gate.** -/
theorem getLast?_ops_of_meet (h : meet d costs true p s = .ok s') :
    s'.ops.getLast? = some (.cnot p.control p.target) := by
  obtain ⟨u, v, route, -, -, -, hcases⟩ := meet_cases h
  rcases hcases with ⟨hagain, -⟩ | ⟨near, met, -, hmet, rfl⟩
  · cases hagain
  · simpa [State.use] using getLast?_ops_of_settle hmet

end Meeting

/-! ## Runs and solutions -/

section Runs

variable {d : Device} {costs : CostModel} {p : Pair} {i j : Nat}

/-- In a run the step of an entry whose pair comes again ends in a plain gate. -/
theorem getLast?_ops_of_run {entries : List (Nat × Pair)} {s final : State} {steps : List Step}
    (h : run d costs entries s = .ok (steps, final)) (hij : i < j) {k k' : Nat}
    (hi : entries[i]? = some (k, p)) (hj : entries[j]? = some (k', p)) {step : Step}
    (hstep : steps[i]? = some step) : step.ops.getLast? = some (.cnot p.control p.target) := by
  induction entries generalizing i j s steps with
  | nil => simp at hi
  | cons entry rest ih =>
    obtain ⟨callPoint, q⟩ := entry
    obtain ⟨met, hmet, h⟩ := bind_eq_ok_iff.1 h
    obtain ⟨⟨later, last⟩, hrest, h⟩ := bind_eq_ok_iff.1 h
    cases h
    obtain ⟨j, rfl⟩ : ∃ j', j = j' + 1 := ⟨j - 1, by omega⟩
    rw [List.getElem?_cons_succ] at hj
    cases i with
    | zero =>
      -- this is the meeting of the pair, and the later entry is among those left
      simp only [List.getElem?_cons_zero, Option.some.injEq, Prod.mk.injEq] at hi hstep
      obtain ⟨rfl, rfl⟩ := hi
      subst hstep
      have hagain : (rest.any fun entry => entry.2 == q) = true :=
        List.any_eq_true.2 ⟨_, List.mem_of_getElem? hj, beq_self_eq_true q⟩
      rw [hagain] at hmet
      exact getLast?_ops_of_meet hmet
    | succ i =>
      rw [List.getElem?_cons_succ] at hi hstep
      exact ih hrest (by omega) hi hj hstep

/-- In a solution the step of a dependency whose pair comes again ends in a plain gate. -/
theorem getLast?_ops_of_build {deps : Dependencies} {initial : List Nat} {s : Solution}
    {stats : Stats} (h : build d costs deps initial = .ok (s, stats)) {dep : Dependency}
    (hdep : deps[i]? = some dep) (hp : dep.pairs = [p]) (hagain : deps.ComesAgain i p) {step : Step}
    (hstep : s.steps[i]? = some step) : step.ops.getLast? = some (.cnot p.control p.target) := by
  obtain ⟨-, pairs, final, hpairs, hrun, -⟩ := build_cases h
  have hforall := Dependencies.pairs_eq_ok_iff.1 hpairs
  -- the entry of a dependency has its call point and its pair
  have hentry : ∀ {k : Nat} {dep : Dependency}, deps[k]? = some dep → dep.pairs = [p] →
      ((deps.map Dependency.callPoint).zip pairs)[k]? = some (dep.callPoint, p) := by
    intro k dep hdep hp
    obtain ⟨hk, rfl⟩ := List.getElem?_eq_some_iff.1 hdep
    have hk' : k < pairs.length := by rwa [← hforall.length_eq]
    have hpair := (List.forall₂_iff_get.1 hforall).2 k hk hk'
    simp_all
  obtain ⟨j, dep', hij, hdep', hp'⟩ := hagain
  exact getLast?_ops_of_run hrun hij (hentry hdep hp) (hentry hdep' hp') hstep

/-- Every step of a solution meets the dependency at its place. -/
theorem exists_meets_of_build {deps : Dependencies} {initial : List Nat} {s : Solution}
    {stats : Stats} (h : build d costs deps initial = .ok (s, stats)) {step : Step}
    (hstep : s.steps[i]? = some step) : ∃ dep, deps[i]? = some dep ∧ step.Meets dep := by
  obtain ⟨hlen, hmeets⟩ := List.forall₂_iff_get.1 (solves_of_build h).1.meets
  obtain ⟨hi, rfl⟩ := List.getElem?_eq_some_iff.1 hstep
  have hi' : i < deps.length := by omega
  exact ⟨deps[i], List.getElem?_eq_getElem hi', hmeets i hi' hi⟩

/-- A gate other than a swap is the last operation of a step that meets a dependency, and it is on
the dependency's pair. -/
theorem eq_getLast_of_meets {step : Step} {dep : Dependency} (h : step.Meets dep) {op : Operation}
    (hop : op ∈ step.ops) (hswap : op.isSwap = false) :
    step.ops.getLast? = some op ∧ dep.pairs = [⟨op.operands.1, op.operands.2⟩] := by
  obtain ⟨-, q, swaps, gate, hq, hops, hswaps, -, hoperands⟩ := h
  rw [hops, List.mem_append, List.mem_singleton] at hop
  rcases hop with hop | rfl
  · have hcontra := hswaps op hop
    rw [hswap] at hcontra
    cases hcontra
  · simp [hops, hoperands, hq]

end Runs

/-- **Path-guided allocation pays for a direction or a bridge only at the last occurrence of a
pair.** In a solution there is one step for each dependency. If the dependency's pair comes again,
its step is some swaps and then a plain gate; a reversed gate or a gate over a bridge stands only in
the step of the last dependency on its pair. The steps are those of a run that counts down the
occurrences of each pair. -/
theorem build_pays_at_last_occurrence {d : Device} {costs : CostModel} {deps : Dependencies}
    {initial : List Nat} {s : Solution} {stats : Stats}
    (h : build d costs deps initial = .ok (s, stats)) :
    s.steps.length = deps.length ∧
    (∀ i dep p step, deps[i]? = some dep → dep.pairs = [p] → deps.ComesAgain i p →
      s.steps[i]? = some step → ∃ swaps, step.ops = swaps ++ [.cnot p.control p.target] ∧
        ∀ op ∈ swaps, op.isSwap = true) ∧
    (∀ i step a b, s.steps[i]? = some step →
      (.rev a b ∈ step.ops ∨ ∃ w, .longCnot a b w ∈ step.ops) →
      (∃ dep, deps[i]? = some dep ∧ dep.pairs = [⟨a, b⟩]) ∧ ¬ deps.ComesAgain i ⟨a, b⟩) ∧
    ∃ pairs final, deps.pairs = .ok pairs ∧
      runCounted d costs (tally ((deps.map Dependency.callPoint).zip pairs))
        ((deps.map Dependency.callPoint).zip pairs) (.start ⟨initial, inverse initial⟩) =
          .ok (s.steps, final) := by
  refine ⟨(solves_of_build h).1.meets.length_eq.symm, ?_, ?_, ?_⟩
  · intro i dep p step hdep hp hagain hstep
    have hlast := getLast?_ops_of_build h hdep hp hagain hstep
    obtain ⟨dep', -, -, q, swaps, gate, -, hops, hswaps, -⟩ := exists_meets_of_build h hstep
    refine ⟨swaps, ?_, hswaps⟩
    rw [hops, List.getLast?_concat, Option.some.injEq] at hlast
    rw [hops, hlast]
  · intro i step a b hstep hgate
    obtain ⟨dep, hdep, hmeets⟩ := exists_meets_of_build h hstep
    -- a plain gate in the last place would be another one
    have hother : ∀ {op : Operation}, op ∈ step.ops → op.isSwap = false → op.operands = (a, b) →
        op ≠ .cnot a b →
        (∃ dep, deps[i]? = some dep ∧ dep.pairs = [⟨a, b⟩]) ∧ ¬ deps.ComesAgain i ⟨a, b⟩ := by
      intro op hop hswap hoperands hne
      obtain ⟨hlast, hp⟩ := eq_getLast_of_meets hmeets hop hswap
      rw [hoperands] at hp
      refine ⟨⟨dep, hdep, hp⟩, fun hagain => hne ?_⟩
      have hplain := getLast?_ops_of_build h hdep hp hagain hstep
      exact Option.some.inj (hlast.symm.trans hplain)
    rcases hgate with hrev | ⟨w, hbridge⟩
    · exact hother hrev rfl rfl (by simp)
    · exact hother hbridge rfl rfl (by simp)
  · obtain ⟨-, pairs, final, hpairs, hrun, -⟩ := build_cases h
    exact ⟨pairs, final, hpairs, (runCounted_tally d costs _ _).trans hrun⟩

/-- Six dependencies on a path of five qubits. The pair that comes three times is turned round from
the start, and chains move its qubits in between. The pair of the third and the last is brought
together and turned round by swaps the first time, and bridged in the end. The fifth pair comes once
and gets a reversed gate. -/
theorem build_pays_at_last_occurrence_path :
    let d := Device.ofNodup 5 [(0, 1), (2, 1), (2, 3), (4, 3)] (by decide) (by decide)
    let deps : Dependencies := [⟨0, [⟨1, 0⟩]⟩, ⟨1, [⟨1, 0⟩]⟩, ⟨2, [⟨3, 0⟩]⟩, ⟨3, [⟨1, 0⟩]⟩,
      ⟨4, [⟨3, 2⟩]⟩, ⟨5, [⟨3, 0⟩]⟩]
    ∃ s stats, build d .standard deps [0, 1, 2, 3, 4] = .ok (s, stats) ∧
      s.steps = [⟨0, [.cnot 1 0]⟩, ⟨1, [.cnot 1 0]⟩, ⟨2, [.swap 2 0, .swap 3 0, .cnot 3 0]⟩,
        ⟨3, [.swap 3 0, .swap 0 2, .cnot 1 0]⟩, ⟨4, [.rev 3 2]⟩, ⟨5, [.longCnot 3 0 2]⟩] ∧
      deps.ComesAgain 1 ⟨1, 0⟩ ∧ (∃ step swaps, s.steps[1]? = some step ∧
        step.ops = swaps ++ [.cnot 1 0]) ∧
      deps.ComesAgain 2 ⟨3, 0⟩ ∧ (∃ step swaps, s.steps[2]? = some step ∧
        step.ops = swaps ++ [.cnot 3 0]) ∧
      ¬ deps.ComesAgain 4 ⟨3, 2⟩ ∧ ¬ deps.ComesAgain 5 ⟨3, 0⟩ := by
  intro d deps
  have hbuild : build d .standard deps [0, 1, 2, 3, 4] = .ok (⟨[1, 0, 2, 3, 4], 42,
      [⟨0, [.cnot 1 0]⟩, ⟨1, [.cnot 1 0]⟩, ⟨2, [.swap 2 0, .swap 3 0, .cnot 3 0]⟩,
        ⟨3, [.swap 3 0, .swap 0 2, .cnot 1 0]⟩, ⟨4, [.rev 3 2]⟩, ⟨5, [.longCnot 3 0 2]⟩]⟩,
      ⟨28, 2, 3⟩) := by
    decide +kernel
  have hturned : deps.ComesAgain 1 ⟨1, 0⟩ := ⟨3, _, by decide, rfl, rfl⟩
  have hbrought : deps.ComesAgain 2 ⟨3, 0⟩ := ⟨5, _, by decide, rfl, rfl⟩
  obtain ⟨-, hplain, hpaid, -⟩ := build_pays_at_last_occurrence hbuild
  obtain ⟨swaps, hswaps, -⟩ := hplain 1 _ ⟨1, 0⟩ _ rfl rfl hturned rfl
  obtain ⟨swaps', hswaps', -⟩ := hplain 2 _ ⟨3, 0⟩ _ rfl rfl hbrought rfl
  refine ⟨_, _, hbuild, rfl, hturned, ⟨_, swaps, rfl, hswaps⟩, hbrought, ⟨_, swaps', rfl, hswaps'⟩,
    ?_, ?_⟩
  · exact (hpaid 4 _ 3 2 rfl (Or.inl (by decide))).2
  · exact (hpaid 5 _ 3 0 rfl (Or.inr ⟨2, by decide⟩)).2

end PathGuided

end QubitAllocation
