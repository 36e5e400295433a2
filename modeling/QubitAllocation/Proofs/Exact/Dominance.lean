import QubitAllocation.Proofs.Bridges
import QubitAllocation.Proofs.Exact.Sharing

/-!
# The dynamic programme is at least as good as every strategy

A solution that replays, has the call points in order and bridges only what is apart is an upper
bound: the dynamic programme answers, with a solution that replays too and costs no more
(`exists_solve_le`). Path-guided and direct solutions are such solutions. A greedy one meets the
dependencies in an order of its own; it is compared with the dynamic programme on the dependencies
in that order (`Dependencies.reorder`), for which it is accepted just as well
(`Replay.Accepted.of_perm`).

No relation between the prices is needed, since the strategies never bridge coupled qubits.
-/

set_option autoImplicit false

namespace QubitAllocation

open Outcome Replay

/-! ## Dependencies in another order -/

/-- The dependencies in the order of the call points. -/
def Dependencies.reorder (deps : Dependencies) (calls : List Nat) : Dependencies :=
  calls.filterMap fun k => deps.find? fun dep => dep.callPoint == k

section Reorder

variable {deps deps' : Dependencies} {calls : List Nat}

/-- Every call point brings its dependency. -/
theorem Dependencies.map_callPoint_reorder
    (h : ∀ k ∈ calls, k ∈ deps.map Dependency.callPoint) :
    (deps.reorder calls).map Dependency.callPoint = calls := by
  induction calls with
  | nil => rfl
  | cons k calls ih =>
    rw [List.forall_mem_cons] at h
    obtain ⟨dep, hdep, rfl⟩ := List.mem_map.1 h.1
    have hsome : (deps.find? fun dep' => dep'.callPoint == dep.callPoint).isSome := by
      rw [List.find?_isSome]
      exact ⟨dep, hdep, by simp⟩
    obtain ⟨found, hfound⟩ := Option.isSome_iff_exists.1 hsome
    have hcall : found.callPoint = dep.callPoint := by simpa using List.find?_some hfound
    have hcons : deps.reorder (dep.callPoint :: calls) = found :: deps.reorder calls := by
      simp only [reorder, List.filterMap_cons, hfound]
    rw [hcons, List.map_cons, hcall, ih h.2]

theorem Dependencies.mem_of_mem_reorder {dep : Dependency} (h : dep ∈ deps.reorder calls) :
    dep ∈ deps := by
  obtain ⟨k, -, hfound⟩ := List.mem_filterMap.1 h
  exact List.mem_of_find?_eq_some hfound

/-- **Reordered dependencies are the same dependencies.** -/
theorem Dependencies.reorder_perm (hdistinct : (deps.map Dependency.callPoint).Nodup)
    (h : calls.Perm (deps.map Dependency.callPoint)) : (deps.reorder calls).Perm deps := by
  have hcalls := map_callPoint_reorder fun k hk => h.mem_iff.1 hk
  -- distinct call points make for distinct dependencies, and there are as many of them
  have hnodup : (deps.reorder calls).Nodup := by
    apply List.Nodup.of_map Dependency.callPoint
    rw [hcalls]
    exact h.nodup_iff.2 hdistinct
  apply (hnodup.subperm fun dep hdep => mem_of_mem_reorder hdep).perm_of_length_le
  have hlen := h.length_eq
  rw [← hcalls, List.length_map, List.length_map] at hlen
  exact hlen.ge

theorem Dependencies.validate_of_perm {n : Nat} (hperm : deps'.Perm deps)
    (h : deps.validate n = .ok ()) : deps'.validate n = .ok () := by
  rw [Dependencies.validate_eq_ok_iff] at h ⊢
  exact fun dep hdep => h dep (hperm.mem_iff.1 hdep)

/-- A solution may be judged against the dependencies in any order. -/
theorem Replay.Accepted.of_perm {d : Device} {s : Solution} {costs : CostModel} {c : Nat}
    (h : Accepted d deps s costs c) (hperm : deps'.Perm deps) : Accepted d deps' s costs c where
  initial := h.initial
  single := fun dep hdep => h.single dep (hperm.mem_iff.1 hdep)
  distinct := (hperm.map _).nodup_iff.2 h.distinct
  covered := h.covered.trans (hperm.map _).symm
  runs := h.runs
  ends := by
    intro step hstep
    obtain ⟨dep, hdep, p, hends⟩ := h.ends step hstep
    exact ⟨dep, hperm.mem_iff.2 hdep, p, hends⟩
  cost := h.cost
  fits := h.fits

end Reorder

/-! ## Upper bounds -/

namespace Exact

variable {d : Device} {costs : CostModel} {shared : Option SwapTable} {deps : Dependencies}
  {s : Solution} {c : Nat}

/-- **What replays in order bounds the dynamic programme**: it answers with a solution that replays
at its cost, and at no higher cost. -/
theorem exists_solve_le (hsuits : Suits d shared) (hsize : d.size ≤ SwapTable.maxSize)
    (hvalid : deps.validate d.size = .ok ()) (h : Accepted d deps s costs c)
    (horder : s.steps.map Step.callPoint = deps.map Dependency.callPoint)
    (hapart : BridgesApart d s.initial s.ops) :
    ∃ e, solve d costs shared deps = .ok e ∧ replay d deps e costs = .ok e.cost ∧ e.cost ≤ c := by
  -- the table does not matter, so let it be the device's own
  suffices hown : ∃ e, solve d costs none deps = .ok e ∧ e.cost ≤ c by
    obtain ⟨e, he, hle⟩ := hown
    obtain ⟨e', he', hcost⟩ := hsuits.exists_ok he
    exact ⟨e', he', (hsuits.solves he').replay_eq h.distinct, hcost.trans_le hle⟩
  by_cases hne : deps = []
  · subst hne
    exact ⟨_, rfl, Nat.zero_le c⟩
  · obtain ⟨pairs, hpairs⟩ := Dependencies.exists_pairs h.single
    obtain ⟨t, htable, hs⟩ := exists_ownTable (Dependencies.pos_of_validate hvalid hne) hsize
    -- the solution passes through stops that cost no more
    obtain ⟨route, c₀, hpriced, hle⟩ := priced_of_accepted costs hs hne hvalid hpairs horder h
    have hbound : c₀ ≤ c := h.cost_eq ▸ hle (Or.inr hapart)
    rcases solve_of_priced hs hvalid hne htable hpairs hpriced with
      ⟨e, hsolve, hcost⟩ | ⟨k, hlarge, hk, -⟩
    · exact ⟨e, hsolve, hcost.trans hbound⟩
    · -- the solution's own cost fits, so a lower one does too
      have hfits := h.fits
      omega

/-- A solution that meets the dependencies in their order is such a bound. -/
theorem exists_solve_le_of_solves (hsuits : Suits d shared) (hsize : d.size ≤ SwapTable.maxSize)
    (hvalid : deps.validate d.size = .ok ()) (hdistinct : (deps.map Dependency.callPoint).Nodup)
    (h : Solves d costs deps s) (hapart : BridgesApart d s.initial s.ops) :
    ∃ e, solve d costs shared deps = .ok e ∧ replay d deps e costs = .ok e.cost ∧
      e.cost ≤ s.cost := by
  have haccepted := accepted_of_replay (h.replay_eq hdistinct)
  exact exists_solve_le hsuits hsize hvalid haccepted h.map_callPoint hapart

/-- **The dynamic programme dominates the other strategies.** On a device of at most nine qubits, and
at any prices, whenever the path-guided or the direct strategy answers from some mapping, the
dynamic programme answers at no higher cost; and whenever the greedy strategy does, from either
placement, it answers at no higher cost on the dependencies in the order of the greedy steps. The
solution of the dynamic programme replays at its cost each time. -/
theorem solve_dominates {d : Device} {shared : Option SwapTable} {deps : Dependencies}
    (costs : CostModel) (hsuits : Suits d shared) (hsize : d.size ≤ 9)
    (hvalid : deps.validate d.size = .ok ())
    (hdistinct : (deps.map Dependency.callPoint).Nodup) :
    (∀ initial s stats, PathGuided.build d costs deps initial = .ok (s, stats) →
      ∃ e, solve d costs shared deps = .ok e ∧ replay d deps e costs = .ok e.cost ∧
        e.cost ≤ s.cost) ∧
    (∀ initial s, Direct.build d costs deps initial = .ok s →
      ∃ e, solve d costs shared deps = .ok e ∧ replay d deps e costs = .ok e.cost ∧
        e.cost ≤ s.cost) ∧
    ∀ placement g, Greedy.solve d costs placement deps = .ok g →
      (deps.reorder (g.steps.map Step.callPoint)).Perm deps ∧
      (deps.reorder (g.steps.map Step.callPoint)).map Dependency.callPoint =
        g.steps.map Step.callPoint ∧
      ∃ e, solve d costs shared (deps.reorder (g.steps.map Step.callPoint)) = .ok e ∧
        replay d (deps.reorder (g.steps.map Step.callPoint)) e costs = .ok e.cost ∧
        e.cost ≤ g.cost := by
  refine ⟨?_, ?_, ?_⟩
  · intro initial s stats hbuild
    exact exists_solve_le_of_solves hsuits hsize hvalid hdistinct
      (PathGuided.solves_of_build hbuild).1 (PathGuided.bridgesApart_of_build hbuild)
  · intro initial s hbuild
    exact exists_solve_le_of_solves hsuits hsize hvalid hdistinct
      (Direct.solves_of_build hbuild) (Direct.bridgesApart_of_build hbuild)
  · intro placement g hgreedy
    obtain ⟨outcome, hcircuit, houtcome⟩ := bind_eq_ok_iff.1 hgreedy
    cases houtcome
    have hcarries := Circuit.carries_ofDependencies hvalid hdistinct
    have haccepted := accepted_of_replay (Greedy.of_solveCircuit (fun _ => hcarries) hcircuit).1
    -- the greedy steps are in order for the reordered dependencies
    have hperm := Dependencies.reorder_perm hdistinct haccepted.covered
    have hcalls := Dependencies.map_callPoint_reorder fun k hk => haccepted.covered.mem_iff.1 hk
    refine ⟨hperm, hcalls, ?_⟩
    exact exists_solve_le hsuits hsize (Dependencies.validate_of_perm hperm hvalid)
      (haccepted.of_perm hperm) hcalls.symm
      (Greedy.bridgesApart_of_solveCircuit (fun _ => hcarries) hcircuit)

/-- Four dependencies on a path of four qubits, where a bridge is cheaper than a reversed gate: all
three strategies answer, the greedy one in another order, and the dynamic programme costs no more
than any of them. -/
theorem solve_dominates_path :
    let d := Device.ofNodup 4 [(0, 1), (2, 1), (3, 2)] (by decide) (by decide)
    let costs : CostModel := ⟨7, 30, 10⟩
    let deps : Dependencies := [⟨5, [⟨0, 1⟩]⟩, ⟨9, [⟨0, 3⟩]⟩, ⟨2, [⟨2, 1⟩]⟩, ⟨4, [⟨0, 2⟩]⟩]
    let reordered : Dependencies :=
      [⟨5, [⟨0, 1⟩]⟩, ⟨2, [⟨2, 1⟩]⟩, ⟨9, [⟨0, 3⟩]⟩, ⟨4, [⟨0, 2⟩]⟩]
    ∃ guided stats direct greedy, PathGuided.build d costs deps [0, 1, 2, 3] = .ok (guided, stats) ∧
      Direct.build d costs deps [1, 0, 2, 3] = .ok direct ∧
      Greedy.solve d costs .identity deps = .ok greedy ∧
      (∃ e, solve d costs none deps = .ok e ∧ replay d deps e costs = .ok e.cost ∧
        e.cost ≤ guided.cost ∧ e.cost ≤ direct.cost) ∧
      deps.reorder (greedy.steps.map Step.callPoint) = reordered ∧
      ∃ e, solve d costs none reordered = .ok e ∧ replay d reordered e costs = .ok e.cost ∧
        e.cost ≤ greedy.cost := by
  intro d costs deps reordered
  have hguided : PathGuided.build d costs deps [0, 1, 2, 3] = .ok (⟨[0, 1, 2, 3], 28,
      [⟨5, [.cnot 0 1]⟩, ⟨9, [.swap 3 2, .swap 3 1, .cnot 0 3]⟩, ⟨2, [.cnot 2 1]⟩,
        ⟨4, [.swap 2 1, .swap 2 3, .cnot 0 2]⟩]⟩, ⟨28, 2, 4⟩) := by
    decide +kernel
  have hdirect : Direct.build d costs deps [1, 0, 2, 3] = .ok ⟨[1, 0, 2, 3], 80,
      [⟨5, [.rev 0 1]⟩, ⟨9, [.longCnot 0 3 2]⟩, ⟨2, [.longCnot 2 1 1]⟩, ⟨4, [.rev 0 2]⟩]⟩ := by
    decide +kernel
  have hgreedy : Greedy.solve d costs .identity deps = .ok ⟨[0, 1, 2, 3], 28,
      [⟨5, [.cnot 0 1]⟩, ⟨2, [.cnot 2 1]⟩, ⟨9, [.swap 3 2, .swap 3 1, .cnot 0 3]⟩,
        ⟨4, [.swap 2 1, .swap 2 3, .cnot 0 2]⟩]⟩ := by
    decide +kernel
  obtain ⟨hbuilt, hfixed, hordered⟩ :=
    @solve_dominates d none deps costs (suits_none d) (by decide) rfl (by decide)
  obtain ⟨e, he, hreplay, hle⟩ := hbuilt _ _ _ hguided
  obtain ⟨e', he', -, hle'⟩ := hfixed _ _ hdirect
  obtain rfl : e = e' := Except.ok.inj (he.symm.trans he')
  exact ⟨_, _, _, _, hguided, hdirect, hgreedy, ⟨e, he, hreplay, hle, hle'⟩, rfl,
    (hordered _ _ hgreedy).2.2⟩

end Exact

end QubitAllocation
