import QubitAllocation.Proofs.Totals.Runs

/-!
# Totals of greedy allocation

A greedy run adds the price of the cheapest candidate whenever it commits a node that has a
dependency. No candidate costs more than the ceiling of the device (`evaluate_cost_le`), so a run is
worth at most the ceiling for each node with a dependency that it has scheduled (`Run.Billed`). How
many such nodes there are, scheduled or not, is the circuit's `load`; the circuit of a list of
dependencies has a load of at most the length of the list.

What a run is worth is also the exact price of its steps, so greedy allocation reports what it
should (`bills_solveCircuit`, `bills_solve`).
-/

set_option autoImplicit false

namespace QubitAllocation

open Arrangement Outcome

/-! ## How much a circuit has to do -/

namespace Circuit

/-- The number of nodes that have a dependency. -/
def load (c : Circuit) (deps : Dependencies) : Nat :=
  (c.nodes.toList.map Node.callPoint).countP fun k => k ∈ deps.map Dependency.callPoint

theorem load_ofDependencies_le (deps : Dependencies) (n : Nat) :
    (ofDependencies deps n).load deps ≤ deps.length := by
  refine List.countP_le_length.trans (Nat.le_of_eq ?_)
  rw [List.length_map, ofDependencies, ofNodes, List.length_map]

/-- Nodes with call points of their own take at most one dependency each. -/
theorem load_le_of_nodup {c : Circuit} (deps : Dependencies)
    (h : (c.nodes.toList.map Node.callPoint).Nodup) : c.load deps ≤ deps.length := by
  rw [load, List.countP_eq_length_filter, ← List.length_map Dependency.callPoint]
  refine (List.subperm_of_subset (h.filter _) fun k hk => ?_).length_le
  exact of_decide_eq_true (List.mem_filter.1 hk).2

end Circuit

/-- The nodes scheduled so far have no more dependencies than the circuit. -/
theorem Frontier.Scheduled.countP_le_load {c : Circuit} {f : Frontier} {done : List Nat}
    {deps : Dependencies} {table : List (Nat × Pair)} (h : f.Scheduled c done)
    (htable : deps.IsTable table) :
    f.schedule.countP (fun k => (table.lookup k).isSome) ≤ c.load deps := by
  have hsub : done.Subperm (List.range c.size) :=
    List.subperm_of_subset h.nodup fun i hi => List.mem_range.2 (h.lt i hi)
  rw [Circuit.load, c.map_callPoint_nodes, h.schedule]
  calc (done.map c.callPointAt).countP (fun k => (table.lookup k).isSome)
      ≤ ((List.range c.size).map c.callPointAt).countP fun k => (table.lookup k).isSome :=
        by
          rw [List.countP_map, List.countP_map]
          exact hsub.countP_le _
    _ = ((List.range c.size).map c.callPointAt).countP fun k => k ∈ deps.map Dependency.callPoint :=
        List.countP_congr fun k _ => by rw [htable.lookup_isSome_iff, decide_eq_true_iff]

namespace Greedy

/-! ## What a candidate can cost -/

section Candidates

variable {d : Device} {costs : CostModel} {s : State} {p : Pair} {candidate : Candidate}

theorem directionPrice_le (hcosts : costs.InWords) (d : Device) (u v : Nat) :
    directionPrice d costs u v ≤ Text.wordMax := by
  unfold directionPrice
  split_ifs
  · exact Nat.zero_le _
  · exact hcosts.reverse_le

theorem relocation_cost_le (hcosts : costs.InWords) (hcons : s.layout.Consistent d.size)
    {mover anchor : Nat} (h : relocation? d costs s p mover anchor = .ok (some candidate)) :
    candidate.cost ≤ Text.wordMax := by
  obtain ⟨-, place, site, partner, -, -, -, -, rfl⟩ := of_relocation hcons h
  dsimp only
  split_ifs
  · exact directionPrice_le hcosts d site place
  · exact directionPrice_le hcosts d place site

theorem relocate_cost_le (hcosts : costs.InWords) (hcons : s.layout.Consistent d.size)
    (h : relocate? d costs s p = .ok (some candidate)) : candidate.cost ≤ Text.wordMax := by
  obtain ⟨mover, anchor, -, heq⟩ := relocate_eq d costs s p
  rw [heq] at h
  split_ifs at h
  · cases h
  · obtain ⟨first, hfirst, h⟩ := bind_eq_ok_iff.1 h
    cases first with
    | some candidate' =>
      cases h
      exact relocation_cost_le hcosts hcons hfirst
    | none => exact relocation_cost_le hcosts hcons h

theorem chainAlong_cost_le (hcosts : costs.InWords) (d : Device) (route : List Nat) :
    (chainAlong d costs route).cost ≤ (route.length - 2) * costs.swap + Text.wordMax := by
  have hreverse := hcosts.reverse_le
  unfold chainAlong
  dsimp only
  split_ifs <;> dsimp only <;> omega

/-- **No candidate costs more than the ceiling.** -/
theorem evaluate_cost_le (hcosts : costs.InWords) (hcons : s.layout.Consistent d.size)
    (h : evaluate d costs s p = .ok candidate) : candidate.cost ≤ d.ceiling := by
  obtain ⟨u, hu, h⟩ := bind_eq_ok_iff.1 h
  obtain ⟨v, hv, h⟩ := bind_eq_ok_iff.1 h
  rw [lookup_eq_ok_iff] at hu hv
  have hulen := hcons.mapping.entry_lt hu
  have hword := Device.wordMax_le_ceiling (Nat.zero_lt_of_lt hulen)
  split_ifs at h
  · cases h
    exact Nat.zero_le _
  · cases h
    exact hcosts.reverse_le.trans hword
  · obtain ⟨found, hfound, h⟩ := bind_eq_ok_iff.1 h
    cases found with
    | some candidate' =>
      cases h
      exact (relocate_cost_le hcosts hcons hfound).trans hword
    | none =>
      obtain ⟨route, hroute, h⟩ := bind_eq_ok_iff.1 h
      cases h
      have hlen := Device.length_route_le (ofDevice_eq_ok_iff.1 hroute)
      exact (chainAlong_cost_le hcosts d route).trans
        (Device.hops_le_ceiling hcosts (by omega) le_rfl)

end Candidates

/-! ## What a run is worth -/

section Runs

variable {t : Task} {start r r' : Run}

/-- The total of a run is the price of its steps, and at most the ceiling for each scheduled node
that has a dependency. -/
structure Run.Billed (t : Task) (r : Run) : Prop where
  cost_eq : r.cost = t.costs.total (r.steps.flatMap Step.ops)
  cost_le : r.cost ≤
    (r.frontier.schedule.countP fun k => (t.pairs.lookup k).isSome) * t.device.ceiling

theorem schedule_of_commit {c : Circuit} {f f' : Frontier} {i : Nat} (h : f.commit c i = some f') :
    ∃ k, f'.schedule = f.schedule ++ [k] := by
  obtain ⟨node, -, h⟩ := Option.bind_eq_some_iff.1 h
  obtain ⟨cursor, -, h⟩ := Option.bind_eq_some_iff.1 h
  cases h
  exact ⟨node.callPoint, rfl⟩

/-- Scheduling more nodes never makes the bound smaller. -/
theorem Run.Billed.of_schedule (h : r.Billed t) {f : Frontier} {s : State}
    (hextends : r.frontier.schedule <+: f.schedule) :
    Run.Billed t { r with frontier := f, state := s } := by
  refine ⟨h.cost_eq, h.cost_le.trans (Nat.mul_le_mul_right _ ?_)⟩
  exact hextends.sublist.countP_le

theorem Run.Billed.committed (h : r.Billed t) {i : Nat} {f : Frontier} {s : State}
    (hf : r.frontier.commit t.circuit i = some f) :
    Run.Billed t { r with frontier := f, state := s } := by
  obtain ⟨k, hk⟩ := schedule_of_commit hf
  exact h.of_schedule (hk ▸ List.prefix_append _ _)

/-- The cheapest dependency adds one node that has a dependency, at the price of its operations. -/
theorem Run.Billed.cheapest (hcosts : t.costs.InWords) (ht : t.Valid) (hsafe : r.Safe t)
    (h : r.Billed t) (hr : commitCheapest t r = .ok r') : r'.Billed t := by
  obtain ⟨done, ops, hscheduled, htracks⟩ := hsafe
  obtain ⟨hready, bids, hbids⟩ := bids_of_commitCheapest hr
  obtain ⟨best, -, hleads, hp, heval, hcommit⟩ := commitCheapest_of_bids hscheduled hready hbids
  obtain ⟨swaps, gate, s, happly, -, -, -, hprice⟩ :=
    apply_of_works (works_of_evaluate htracks (ht.of_pair? hp).2.2 heval)
  rw [hcommit _ s happly] at hr
  cases hr
  refine ⟨?_, ?_⟩
  · -- a candidate was priced before it is applied, and is applied at that price
    show r.cost + best.candidate.cost = _
    rw [List.flatMap_append, CostModel.total_append, ← h.cost_eq, ← hprice]
    simp [CostModel.total, total_eq_sum]
  · show r.cost + best.candidate.cost ≤
      ((r.frontier.schedule ++ [t.circuit.callPointAt best.node]).countP _) * _
    have hpaired : (t.pairs.lookup (t.circuit.callPointAt best.node)).isSome = true := by
      rw [← pair?_eq hleads.lt, hp]
      rfl
    rw [List.countP_append, List.countP_singleton, if_pos hpaired, Nat.succ_mul]
    exact Nat.add_le_add h.cost_le (evaluate_cost_le hcosts htracks.layout heval)

/-- **Every run that is passed through is billed.** -/
theorem Passes.billed (hcosts : t.costs.InWords) (ht : t.Valid) (hsafe : start.Safe t)
    (hstart : start.Billed t) (h : Passes t start r) : r.Billed t := by
  induction h with
  | refl => exact hstart
  | lone _ _ hf ih => exact ih.committed hf
  | @counted r f hpasses hf ih =>
    -- counting wires schedules nothing
    obtain ⟨done, ops, hscheduled, -⟩ := hpasses.safe ht hsafe
    obtain ⟨f', hf', hscheduled', -⟩ := Frontier.mark_of_scheduled hscheduled
    obtain rfl := Option.some.inj (hf.symm.trans hf')
    refine ih.of_schedule ?_
    rw [hscheduled.schedule, hscheduled'.schedule]
  | free _ _ _ _ hf ih => exact ih.committed hf
  | cheapest hpasses hr ih => exact ih.cheapest hcosts ht (hpasses.safe ht hsafe) hr

theorem billed_startRun (t : Task) (initial : List Nat) : (startRun t.circuit initial).Billed t :=
  ⟨rfl, Nat.zero_le _⟩

theorem passes_of_advanceAll (ht : t.Valid) (hsafe : start.Safe t) {fuel : Nat}
    (h : Passes t start r) (hr : advanceAll t fuel r = .ok r') : Passes t start r' := by
  induction fuel generalizing r with
  | zero =>
    cases hr
    exact h
  | succ fuel ih =>
    rw [advanceAll, Handler.advanceAll] at hr
    split_ifs at hr
    · cases hr
      exact h
    · obtain ⟨next, hnext, hr⟩ := bind_eq_ok_iff.1 hr
      exact ih (h.advance ht hsafe hnext) hr

end Runs

/-! ## Allocations -/

section Solve

variable {d : Device} {costs : CostModel} {placement : Placement} {c : Circuit}
  {deps : Dependencies}

/-- The steps of a greedy allocation and what they are worth, before this is narrowed. -/
def emitted (d : Device) (costs : CostModel) (placement : Placement) (c : Circuit)
    (deps : Dependencies) : Except AllocError Run := do
  let start ← setUp d costs placement c deps
  advanceAll start.1 c.size start.2

/-- From every first mapping, the total of each run that is passed through is below a bound, and so
is the price of each candidate. -/
def TotalsBelow (bound : Nat) (d : Device) (costs : CostModel) (c : Circuit)
    (deps : Dependencies) : Prop :=
  ∀ initial pairs r, checkMapping initial d.size = .ok () → deps.table = .ok pairs →
    Passes ⟨d, costs, c, pairs⟩ (startRun c initial) r → r.cost < bound ∧
      ∀ i b, bid ⟨d, costs, c, pairs⟩ r.state i = .ok b → b.candidate.cost < bound

/-- **Neither the total of a greedy allocation nor the price of a candidate leaves 64 bits.** -/
theorem totalsBelow (hcosts : costs.InWords) (hvalid : deps.validate d.size = .ok ())
    (hsmall : deps.length * d.size ≤ 2 ^ 32) (hload : c.load deps ≤ deps.length) :
    TotalsBelow (2 ^ 64) d costs c deps := by
  intro initial pairs r hcheck hpairs hpasses
  have htable := (Dependencies.isTable_of_table hpairs).1
  have ht : Task.Valid ⟨d, costs, c, pairs⟩ := valid_of_isTable hvalid htable
  have hsafe := safe_startRun ⟨d, costs, c, pairs⟩ (checkMapping_eq_ok_iff.1 hcheck)
  obtain ⟨done, ops, hscheduled, htracks⟩ := hpasses.safe ht hsafe
  have hbilled := hpasses.billed hcosts ht hsafe (billed_startRun _ initial)
  have hceiling := Device.mul_ceiling_lt hsmall
  refine ⟨?_, fun i b hb => ?_⟩
  · calc r.cost ≤ _ := hbilled.cost_le
      _ ≤ deps.length * d.ceiling :=
        Nat.mul_le_mul_right _ ((hscheduled.countP_le_load htable).trans hload)
      _ < 2 ^ 64 := hceiling
  · obtain ⟨p, hp, hb⟩ := bind_eq_ok_iff.1 hb
    obtain ⟨candidate, heval, hb⟩ := bind_eq_ok_iff.1 hb
    cases hb
    -- a node with a pair has a dependency
    obtain ⟨node, -, hlookup⟩ := Option.bind_eq_some_iff.1 (lookup_eq_ok_iff.1 hp)
    rw [Dependencies.lookup_eq_some_iff_mem htable.nodup] at hlookup
    obtain ⟨dep, hdep, -⟩ := htable.source _ hlookup
    calc candidate.cost ≤ d.ceiling := evaluate_cost_le hcosts htracks.layout heval
      _ ≤ deps.length * d.ceiling := Nat.le_mul_of_pos_left _ (List.length_pos_of_mem hdep)
      _ < 2 ^ 64 := hceiling

/-! ### Reports -/

theorem unbilled_setUp (d : Device) (costs : CostModel) (placement : Placement) (c : Circuit)
    (deps : Dependencies) : Unbilled (setUp d costs placement c deps) := by
  refine unbilled_ite ?_ ?_
  · rintro t ⟨⟩
  · exact (deps.unbilled_validate _).bind fun _ => deps.unbilled_table.bind fun _ =>
      (placement.unbilled_find d deps).bind fun _ => (unbilled_checkMapping _ _).bind fun _ =>
        (Layout.unbilled_ofMapping _).bind fun _ => unbilled_pure _

theorem unbilled_emitted (d : Device) (costs : CostModel) (placement : Placement) (c : Circuit)
    (deps : Dependencies) : Unbilled (emitted d costs placement c deps) :=
  (unbilled_setUp d costs placement c deps).bind fun _ => unbilled_advanceAll _ _ _

/-- The total at the end is the price of the steps. -/
theorem cost_of_emitted (hcosts : costs.InWords) {final : Run}
    (h : emitted d costs placement c deps = .ok final) :
    final.cost = costs.total (final.steps.flatMap Step.ops) := by
  obtain ⟨⟨t, start⟩, hsetUp, hfinal⟩ := bind_eq_ok_iff.1 h
  obtain ⟨ht, hsafe⟩ := safe_of_setUp hsetUp
  obtain ⟨-, pairs, initial, -, -, rfl, rfl⟩ := of_setUp hsetUp
  have hpasses := passes_of_advanceAll ht hsafe .refl hfinal
  exact (hpasses.billed hcosts ht hsafe (billed_startRun _ initial)).cost_eq

theorem bills_solveCircuit (hcosts : costs.InWords) (placement : Placement) (c : Circuit) :
    Bills costs ((emitted d costs placement c deps).map Run.steps)
      ((solveCircuit d costs placement c deps).map Outcome.solution) := by
  have hsolve : (solveCircuit d costs placement c deps).map Outcome.solution =
      emitted d costs placement c deps >>= fun final => narrowCost final.cost >>= fun cost =>
        .ok ⟨final.state.initial, cost, final.steps⟩ := by
    have hconclude : solveCircuit d costs placement c deps =
        emitted d costs placement c deps >>= conclude := by
      rw [solveCircuit_eq_setUp, emitted, bind_assoc]
    rw [hconclude]
    cases emitted d costs placement c deps with
    | error e => rfl
    | ok final =>
      show Except.map Outcome.solution (narrowCost final.cost >>= _) = narrowCost final.cost >>= _
      cases narrowCost final.cost <;> rfl
  rw [hsolve]
  refine bills_of_narrow (unbilled_emitted d costs placement c deps) ?_ ?_
  · exact fun final hfinal => cost_of_emitted hcosts hfinal
  · exact fun final _ _ => ⟨_, rfl, rfl, rfl⟩

theorem bills_solve (hcosts : costs.InWords) (placement : Placement) :
    Bills costs ((emitted d costs placement (.ofDependencies deps d.size) deps).map Run.steps)
      (solve d costs placement deps) := by
  have hsolve : solve d costs placement deps =
      (solveCircuit d costs placement (.ofDependencies deps d.size) deps).map
        Outcome.solution := by
    unfold solve
    cases solveCircuit d costs placement (.ofDependencies deps d.size) deps <;> rfl
  rw [hsolve]
  exact bills_solveCircuit hcosts placement _

end Solve

end Greedy

end QubitAllocation
