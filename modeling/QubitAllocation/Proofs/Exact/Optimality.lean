import QubitAllocation.Proofs.Exact.Soundness

/-!
# Exact solutions are cheapest

Any solution that meets the dependencies in their order, whatever else it does, passes at the end of
each step through a mapping at which the gate of that step's pair can be run. These mappings make up
a sequence of stops: the swaps between two of them are a swap walk, so they are at least as many as
the table says, and the last gate of the step costs no less than the stop is priced at. So the
solution costs no less than a sequence of stops (`follows_of_runs`), and no less than the cheapest
one (`solve_optimal`).

A gate that goes over a bridge although its qubits are coupled can be cheaper than the reversed gate
that the dynamic programme considers. `BridgesApart` rules this out; where reversed gates are no
dearer than bridges it is not needed.
-/

set_option autoImplicit false

namespace QubitAllocation.Exact

open Arrangement Outcome Replay Search

section Bridges

variable {d : Device} {M N : List Nat} {ops ops' : List Operation}

/-- Run from `M`, every gate over a bridge joins qubits that are not coupled at that moment. -/
def BridgesApart (d : Device) (M : List Nat) (ops : List Operation) : Prop :=
  ∀ front a b w later, ops = front ++ .longCnot a b w :: later →
    ∀ N, Runs d M front N → ∀ u v, N[a]? = some u → N[b]? = some v → ¬ d.Coupled u v

theorem BridgesApart.left (h : BridgesApart d M (ops ++ ops')) : BridgesApart d M ops := by
  rintro front a b w later rfl
  exact h front a b w (later ++ ops') (by rw [List.append_assoc, List.cons_append])

theorem BridgesApart.right (h : BridgesApart d M (ops ++ ops')) (hruns : Runs d M ops N) :
    BridgesApart d N ops' := by
  rintro front a b w later rfl N' hfront
  exact h (ops ++ front) a b w later (List.append_assoc _ _ _).symm N'
    (runs_append_iff.2 ⟨N, hruns, hfront⟩)

end Bridges

/-! ## One step passes through one stop -/

/-- The stop at a mapping. -/
def stopAt (M : List Nat) : Stop := ⟨M, inverse M⟩

theorem stopAt_mem_stops {n : Nat} {M : List Nat} (h : IsArrangement n M) : stopAt M ∈ stops n :=
  mem_stops_iff.2 ⟨h, rfl⟩

section Steps

variable {d : Device} {t : SwapTable} {M M' : List Nat} {ops : List Operation} {p : Pair}

/-- Where a run ends, it can be moved to by no more swaps than it has. -/
theorem movePrice_of_runs (costs : CostModel) (hs : t.Serves d) (hM : IsArrangement d.size M)
    (hruns : Runs d M ops M') :
    ∃ m, movePrice? t costs (stopAt M) (stopAt M') = some m ∧
      m ≤ ops.countP Operation.isSwap * costs.swap := by
  have hM' := hruns.isArrangement hM
  exact movePrice_of_walk costs hs (stopAt_mem_stops hM) (stopAt_mem_stops hM') (hruns.swapWalk hM)

/-- A gate on a pair of distinct qubits that can be run at a mapping gives its stop a price, which
is no higher. -/
theorem stopPrice_of_canRun (costs : CostModel) {gate : Operation} (hM : IsArrangement d.size M)
    (hne : p.control ≠ p.target) (hswap : gate.isSwap = false)
    (hoperands : gate.operands = (p.control, p.target)) (hcan : CanRun d M gate) :
    ∃ g, stopPrice? d d.hopTables costs p (stopAt M) = some g ∧
      (costs.reverse ≤ costs.longCnot ∨ BridgesApart d M [gate] → g ≤ costs.price gate) := by
  rw [CanRun, hoperands] at hcan
  obtain ⟨-, -, u, v, hu, hv, hallows⟩ := hcan
  have huv : u ≠ v := by
    rintro rfl
    exact hne (hM.place_unique hu hv)
  have hrealizes : Gate.Realizes d p u v gate := ⟨hoperands, hswap, hallows⟩
  obtain ⟨g, hg⟩ := Gate.exists_gatePrice costs (hM.entry_lt hu) (hM.entry_lt hv) huv hrealizes
  refine ⟨g, ?_, fun hfair => Gate.gatePrice_le hrealizes hg (hfair.imp_right fun hapart => ?_)⟩
  · rw [stopPrice?, stopAt, hu, hv]
    exact hg
  · rintro a b w rfl
    cases hoperands
    exact hapart [] _ _ w [] rfl M (.nil M) u v hu hv

/-- **A step passes through a stop**: operations that end in a gate on a pair pay for a move to the
mapping that they end in and for the gate there. -/
theorem prices_of_endsIn (costs : CostModel) (hs : t.Serves d) (hM : IsArrangement d.size M)
    (hne : p.control ≠ p.target) (hends : EndsIn ops p) (hruns : Runs d M ops M') :
    ∃ m g, movePrice? t costs (stopAt M) (stopAt M') = some m ∧
      stopPrice? d d.hopTables costs p (stopAt M') = some g ∧
      (costs.reverse ≤ costs.longCnot ∨ BridgesApart d M ops →
        m + g ≤ (ops.map costs.price).sum) := by
  -- the last gate moves nothing, so it is run where the step ends
  obtain ⟨front, gate, rfl, hswap, hoperands⟩ := hends
  obtain ⟨N, hfront, hgate⟩ := runs_append_iff.1 hruns
  obtain ⟨hcan, hend⟩ := runs_cons_iff.1 hgate
  rw [after_of_not_isSwap hswap, runs_nil_iff] at hend
  subst hend
  obtain ⟨m, hm, hmle⟩ := movePrice_of_runs costs hs hM hfront
  obtain ⟨g, hg, hgle⟩ :=
    stopPrice_of_canRun costs (hfront.isArrangement hM) hne hswap hoperands hcan
  refine ⟨m, g, hm, hg, fun hfair => ?_⟩
  have hsum := costs.countP_isSwap_mul_le front
  have hle := hgle (hfair.imp_right fun hapart => hapart.right hfront)
  rw [List.map_append, List.sum_append, List.map_singleton, List.sum_singleton]
  omega

end Steps

/-! ## A solution in order passes through a sequence of stops -/

section Sequences

variable {d : Device} {t : SwapTable} {M M' : List Nat} {deps : Dependencies} {pairs : List Pair}
  {s : Solution}

/-- Steps that end in gates on the pairs, in order, cost no less than a sequence of stops. -/
theorem follows_of_runs (costs : CostModel) (hs : t.Serves d) {steps : List Step}
    (hne : ∀ p ∈ pairs, p.control ≠ p.target)
    (hends : List.Forall₂ (fun p step => EndsIn step.ops p) pairs steps)
    (hM : IsArrangement d.size M) (hruns : Runs d M (steps.flatMap Step.ops) M') :
    ∃ rest c, rest.map Prod.fst = pairs ∧ Follows d costs t (stopAt M) rest c ∧
      (costs.reverse ≤ costs.longCnot ∨ BridgesApart d M (steps.flatMap Step.ops) →
        c ≤ ((steps.flatMap Step.ops).map costs.price).sum) := by
  induction hends generalizing M with
  | nil => exact ⟨[], 0, rfl, .nil _, fun _ => Nat.zero_le _⟩
  | @cons p step pairs steps hend _ ih =>
    rw [List.forall_mem_cons] at hne
    rw [List.flatMap_cons] at hruns
    obtain ⟨N, hstep, hlater⟩ := runs_append_iff.1 hruns
    have hN := hstep.isArrangement hM
    obtain ⟨m, g, hm, hg, hle⟩ := prices_of_endsIn costs hs hM hne.1 hend hstep
    obtain ⟨rest, c, rfl, hfollows, hle'⟩ := ih hne.2 hN hlater
    refine ⟨(p, stopAt N) :: rest, m + g + c, rfl,
      .cons (stopAt_mem_stops hN) hm hg hfollows, fun hfair => ?_⟩
    rw [List.flatMap_cons] at hfair ⊢
    rw [List.map_append, List.sum_append]
    have h₁ := hle (hfair.imp_right BridgesApart.left)
    have h₂ := hle' (hfair.imp_right fun hapart => hapart.right hstep)
    omega

/-- The first move need not be paid: the solution may start at the first stop. -/
theorem Follows.exists_priced {costs : CostModel} {source : Stop} {rest : List (Pair × Stop)}
    {c : Nat} (h : Follows d costs t source rest c) (hne : rest ≠ []) :
    ∃ route c', Priced d costs t (rest.map Prod.fst).reverse route c' ∧ c' ≤ c := by
  cases h with
  | nil _ => exact absurd rfl hne
  | @cons _ stop p rest m g c hstop hm hg hlater =>
    obtain ⟨route, hroute⟩ := Follows.priced (.first hstop hg) hlater
    refine ⟨route, g + c, ?_, by omega⟩
    rw [List.map_cons, List.reverse_cons]
    exact hroute

/-- Steps that have the call points in order end in the pairs in order. -/
theorem forall₂_endsIn {steps : List Step}
    (hpairs : List.Forall₂ (fun dep p => dep.pairs = [p]) deps pairs)
    (horder : steps.map Step.callPoint = deps.map Dependency.callPoint)
    (hends : ∀ step ∈ steps, ∀ dep ∈ deps, dep.callPoint = step.callPoint →
      ∀ p, dep.pairs = [p] → EndsIn step.ops p) :
    List.Forall₂ (fun p step => EndsIn step.ops p) pairs steps := by
  induction hpairs generalizing steps with
  | nil =>
    rw [List.map_nil, List.map_eq_nil_iff] at horder
    subst horder
    exact .nil
  | @cons dep p deps pairs hp _ ih =>
    rw [List.map_cons, List.map_eq_cons_iff] at horder
    obtain ⟨step, steps, rfl, hcall, horder⟩ := horder
    refine .cons (hends step List.mem_cons_self dep List.mem_cons_self hcall.symm p hp) ?_
    exact ih horder fun step' hstep' dep' hdep' =>
      hends step' (List.mem_cons_of_mem _ hstep') dep' (List.mem_cons_of_mem _ hdep')

/-- **A solution in order costs no less than a sequence of stops.** -/
theorem priced_of_accepted (costs : CostModel) {costs' : CostModel} {c' : Nat} (hs : t.Serves d)
    (hne : deps ≠ []) (hvalid : deps.validate d.size = .ok ()) (hpairs : deps.pairs = .ok pairs)
    (horder : s.steps.map Step.callPoint = deps.map Dependency.callPoint)
    (h : Accepted d deps s costs' c') :
    ∃ route c, Priced d costs t pairs.reverse route c ∧
      (costs.reverse ≤ costs.longCnot ∨ BridgesApart d s.initial s.ops →
        c ≤ (s.ops.map costs.price).sum) := by
  have hdistinct : ∀ p ∈ pairs, p.control ≠ p.target :=
    fun p hp => (Dependencies.bounds_of_validate hvalid hpairs p hp).2.2
  have hends := forall₂_endsIn (Dependencies.pairs_eq_ok_iff.1 hpairs) horder
    fun step hstep dep hdep hcall p hp => h.endsIn hstep hdep hcall hp
  obtain ⟨M', hruns⟩ := h.runs
  obtain ⟨rest, c, rfl, hfollows, hle⟩ :=
    follows_of_runs costs hs hdistinct hends h.initial hruns
  have hrest : rest ≠ [] := by
    rintro rfl
    exact Dependencies.pairs_ne_nil hpairs hne rfl
  obtain ⟨route, c₀, hpriced, hle₀⟩ := hfollows.exists_priced hrest
  exact ⟨route, c₀, hpriced, fun hfair => hle₀.trans (hle hfair)⟩

end Sequences

/-! ## Optimality -/

theorem exists_chooseTable {d : Device} (hpos : 0 < d.size) (hsize : d.size ≤ SwapTable.maxSize) :
    ∃ t, chooseTable d none = .ok t := by
  obtain ⟨t, hbuild⟩ := SwapTable.exists_build_iff.2 ⟨hpos, hsize⟩
  exact ⟨t, ofDevice_eq_ok_iff.2 hbuild⟩

/-- The device's own table serves it. -/
theorem exists_ownTable {d : Device} (hpos : 0 < d.size) (hsize : d.size ≤ SwapTable.maxSize) :
    ∃ t, chooseTable d none = .ok t ∧ t.Serves d := by
  obtain ⟨t, htable⟩ := exists_chooseTable hpos hsize
  exact ⟨t, htable, serves_of_chooseTable (fun _ h => (by cases h)) htable⟩

/-- A sequence of stops at some price keeps the dynamic programme from finding no solution: it has
one at no higher cost, or one whose cost is too large and no higher. -/
theorem solve_of_priced {d : Device} {costs : CostModel} {t : SwapTable}
    {shared : Option SwapTable} {deps : Dependencies} {pairs : List Pair} {route : List Stop}
    {c : Nat} (hs : t.Serves d) (hvalid : deps.validate d.size = .ok ()) (hne : deps ≠ [])
    (htable : chooseTable d shared = .ok t) (hpairs : deps.pairs = .ok pairs)
    (hpriced : Priced d costs t pairs.reverse route c) :
    (∃ s, solve d costs shared deps = .ok s ∧ s.cost ≤ c) ∨
      ∃ k, 2 ^ 32 ≤ k ∧ k ≤ c ∧ solve d costs shared deps = .error (.costOverflow k) := by
  rcases solve_cases costs hs hvalid hne htable hpairs with
    ⟨hbest, -⟩ | ⟨trail, hbest, ⟨hlarge, hsolve⟩ | ⟨s, hsolve, hcost, -⟩⟩
  · have hpne := Dependencies.pairs_ne_nil hpairs hne
    exact absurd hpriced (not_priced_of_bestTrail_none hbest hpne)
  · exact Or.inr ⟨trail.cost, hlarge, bestTrail_le hbest hpriced, hsolve⟩
  · exact Or.inl ⟨s, hsolve, hcost.trans_le (bestTrail_le hbest hpriced)⟩

/-- **The dynamic programme is optimal.** On a device of at most nine qubits it answers with a
solution that costs no more than any accepted solution that has the call points in order, or it
finds no solution and none in order is accepted at any prices, or the cost is too large and so is
that of all others in order. The solutions that it is compared with use no bridge between coupled
qubits, unless reversed gates are no dearer than bridges. -/
theorem solve_optimal {d : Device} {deps : Dependencies} (costs : CostModel) (hsize : d.size ≤ 9)
    (hne : deps ≠ []) (hvalid : deps.validate d.size = .ok ()) :
    (∀ s, solve d costs none deps = .ok s → ∀ s' c,
      s'.steps.map Step.callPoint = deps.map Dependency.callPoint →
      replay d deps s' costs = .ok c →
      costs.reverse ≤ costs.longCnot ∨ BridgesApart d s'.initial s'.ops → s.cost ≤ c) ∧
    (∀ k, solve d costs none deps = .error (.noSolution k) → ∀ s' costs' c,
      s'.steps.map Step.callPoint = deps.map Dependency.callPoint →
      replay d deps s' costs' ≠ .ok c) ∧
    (∀ k, solve d costs none deps = .error (.costOverflow k) → ∀ s' c,
      s'.steps.map Step.callPoint = deps.map Dependency.callPoint →
      costs.reverse ≤ costs.longCnot ∨ BridgesApart d s'.initial s'.ops →
      replay d deps s' costs ≠ .ok c) ∧
    ((∃ s, solve d costs none deps = .ok s) ∨
      (∃ k, solve d costs none deps = .error (.noSolution k)) ∨
      ∃ k, solve d costs none deps = .error (.costOverflow k)) := by
  have hpos : 0 < d.size := by
    obtain ⟨dep, hdep⟩ := List.exists_mem_of_ne_nil deps hne
    obtain ⟨p, -, hp, -⟩ := Dependencies.validate_eq_ok_iff.1 hvalid dep hdep
    exact Nat.zero_lt_of_lt hp
  obtain ⟨t, htable⟩ := exists_chooseTable hpos hsize
  have hs : t.Serves d := serves_of_chooseTable (fun _ h => (by cases h)) htable
  obtain ⟨pairs, hpairs⟩ := Dependencies.exists_pairs (Dependencies.single_of_validate hvalid)
  rcases solve_cases costs hs hvalid hne htable hpairs with
    ⟨hbest, hsolve⟩ | ⟨trail, hbest, ⟨hlarge, hsolve⟩ | ⟨s, hsolve, hcost, -⟩⟩
  · -- an accepted solution would pass through a sequence of stops; its prices do not matter
    rw [hsolve]
    refine ⟨fun s h => (by cases h), ?_, fun k h => (by cases h), .inr (.inl ⟨_, rfl⟩)⟩
    intro k _ s' costs' c horder hreplay
    obtain ⟨route, c₀, hpriced, -⟩ :=
      priced_of_accepted costs hs hne hvalid hpairs horder (accepted_of_replay hreplay)
    refine not_priced_of_bestTrail_none hbest ?_ hpriced
    rintro rfl
    exact hne (List.forall₂_nil_right_iff.1 (Dependencies.pairs_eq_ok_iff.1 hpairs))
  · -- an accepted cost fits and would be at least the trail's, which does not
    rw [hsolve]
    refine ⟨fun s h => (by cases h), fun k h => (by cases h), ?_, .inr (.inr ⟨_, rfl⟩)⟩
    intro k _ s' c horder hfair hreplay
    have haccepted := accepted_of_replay hreplay
    obtain ⟨route, c₀, hpriced, hle⟩ :=
      priced_of_accepted costs hs hne hvalid hpairs horder haccepted
    have h₁ := bestTrail_le hbest hpriced
    have h₂ := hle hfair
    have h₃ := haccepted.cost_eq ▸ haccepted.fits
    omega
  · rw [hsolve]
    refine ⟨?_, fun k h => (by cases h), fun k h => (by cases h), .inl ⟨_, rfl⟩⟩
    rintro _ ⟨⟩ s' c horder hreplay hfair
    have haccepted := accepted_of_replay hreplay
    obtain ⟨route, c₀, hpriced, hle⟩ :=
      priced_of_accepted costs hs hne hvalid hpairs horder haccepted
    rw [hcost, haccepted.cost_eq]
    exact (bestTrail_le hbest hpriced).trans (hle hfair)

/-- No accepted solution in order of five dependencies on a chain of three qubits costs less than
a bridge and a swap. -/
theorem solve_optimal_chain :
    let d := Device.ofNodup 3 [(0, 1), (1, 2)] (by decide) (by decide)
    let deps : Dependencies := [⟨0, [⟨0, 1⟩]⟩, ⟨1, [⟨1, 2⟩]⟩, ⟨2, [⟨2, 0⟩]⟩, ⟨3, [⟨2, 1⟩]⟩,
      ⟨4, [⟨1, 0⟩]⟩]
    d.size ≤ 9 ∧ deps ≠ [] ∧ deps.validate d.size = .ok () ∧
      ∃ s, solve d .standard none deps = .ok s ∧ s.cost = 17 ∧
        ∀ s' c, s'.steps.map Step.callPoint = deps.map Dependency.callPoint →
          replay d deps s' .standard = .ok c → 17 ≤ c := by
  intro d deps
  have hvalid : deps.validate d.size = .ok () := by cbv
  have hsolve : solve d .standard none deps = .ok ⟨[1, 2, 0], 17,
      [⟨0, [.cnot 0 1]⟩, ⟨1, [.longCnot 1 2 1]⟩, ⟨2, [.cnot 2 0]⟩, ⟨3, [.swap 0 1, .cnot 2 1]⟩,
        ⟨4, [.cnot 1 0]⟩]⟩ := by
    decide +kernel
  have hoptimal := solve_optimal (d := d) .standard (by decide) (by decide) hvalid
  refine ⟨by decide, by decide, hvalid, _, hsolve, rfl, fun s' c horder hreplay => ?_⟩
  exact hoptimal.1 _ hsolve s' c horder hreplay (Or.inl (by decide))

end QubitAllocation.Exact
