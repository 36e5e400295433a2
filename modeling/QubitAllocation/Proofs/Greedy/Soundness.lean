import QubitAllocation.Proofs.Circuit.Carried
import QubitAllocation.Proofs.Circuit.Frontier
import QubitAllocation.Proofs.Greedy.Fix
import QubitAllocation.Proofs.Placement
import Mathlib

/-!
# Greedy solutions replay at their cost

`Run.Inv` is what holds of a run in progress: the frontier knows the scheduled nodes, the state
tracks the operations of the steps, the cost is theirs, and there is one step, which meets its
dependency, for each scheduled call point that has one. Each advance schedules at least one node and
keeps this (`Inv.advance`). It fails only where a pair cannot be brought together, which does not
happen on a connected device. So all nodes are scheduled in the end, and the solution replays at the
cost it reports (`solveCircuit_replays`).
-/

set_option autoImplicit false

namespace QubitAllocation

/-- The step stands at the dependency's call point and has some swaps and then one plain or reversed
gate, on the dependency's pair. -/
def Step.MeetsDirectly (step : Step) (dep : Dependency) : Prop :=
  step.callPoint = dep.callPoint ∧ ∃ p swaps gate, dep.pairs = [p] ∧
    step.ops = swaps ++ [gate] ∧ (∀ op ∈ swaps, op.isSwap = true) ∧
    (gate = .cnot p.control p.target ∨ gate = .rev p.control p.target)

theorem Step.MeetsDirectly.meets {step : Step} {dep : Dependency} (h : step.MeetsDirectly dep) :
    step.Meets dep := by
  obtain ⟨hcall, p, swaps, gate, hp, hops, hall, rfl | rfl⟩ := h
  · exact ⟨hcall, p, swaps, _, hp, hops, hall, rfl, rfl⟩
  · exact ⟨hcall, p, swaps, _, hp, hops, hall, rfl, rfl⟩

namespace Greedy

open QubitAllocation.Outcome Arrangement

/-- The task is to meet the dependencies: they are valid, its circuit carries them and its table
lists them. -/
structure Task.For (t : Task) (deps : Dependencies) : Prop where
  valid : deps.validate t.device.size = .ok ()
  carries : t.circuit.Carries deps
  table : Dependencies.IsTable deps t.pairs

/-- What holds of a run that has scheduled the nodes `done`. -/
structure Run.Inv (t : Task) (deps : Dependencies) (r : Run) (done : List Nat) : Prop where
  frontier : r.frontier.Scheduled t.circuit done
  state : r.state.Tracks t.device (r.steps.flatMap Step.ops)
  cost : r.cost = ((r.steps.flatMap Step.ops).map t.costs.price).sum
  calls : r.steps.map Step.callPoint =
    r.frontier.schedule.filter fun k => (t.pairs.lookup k).isSome
  meets : ∀ step ∈ r.steps, ∃ dep ∈ deps, step.MeetsDirectly dep

section Run

variable {t : Task} {deps : Dependencies} {r : Run} {done : List Nat} {i : Nat}

/-! ## Pairs of nodes -/

theorem pair?_eq (hi : i < t.circuit.size) :
    t.pair? i = t.pairs.lookup (t.circuit.callPointAt i) := by
  obtain ⟨node, hnode⟩ := t.circuit.node?_eq_some hi
  rw [Task.pair?, hnode, Circuit.callPointAt_eq hnode]
  rfl

/-- The pair of a node is that of the dependency at its call point. -/
theorem Task.For.of_pair? (ht : t.For deps) (hi : i < t.circuit.size) {p : Pair}
    (hp : t.pair? i = some p) :
    ∃ dep ∈ deps, dep.callPoint = t.circuit.callPointAt i ∧ dep.pairs = [p] ∧
      p.control < t.device.size ∧ p.target < t.device.size ∧ p.control ≠ p.target := by
  rw [pair?_eq hi, Dependencies.lookup_eq_some_iff_mem ht.table.nodup] at hp
  obtain ⟨dep, hdep, hcall, hpairs⟩ := ht.table.source _ hp
  exact ⟨dep, hdep, hcall, hpairs, Dependencies.bounds_of_mem ht.valid hdep hpairs⟩

/-- A node with at most one wire has no pair. -/
theorem Task.For.pair?_eq_none (ht : t.For deps) (hi : i < t.circuit.size)
    (harity : t.circuit.arity i ≤ 1) : t.pair? i = none := by
  cases hp : t.pair? i with
  | none => rfl
  | some p =>
    obtain ⟨dep, hdep, hcall, -⟩ := ht.of_pair? hi hp
    obtain ⟨node, hnode⟩ := t.circuit.node?_eq_some hi
    rw [Circuit.callPointAt_eq hnode] at hcall
    have hle := ht.carries.arity hnode hdep hcall
    omega

/-! ## Committing one node -/

/-- A node without a pair is scheduled without a step. -/
theorem Run.Inv.commitBare (inv : r.Inv t deps done) (hi : r.frontier.Leads t.circuit done i)
    (hbare : t.pair? i = none) {s : State}
    (hs : s.Tracks t.device (r.steps.flatMap Step.ops)) :
    Run.Inv t deps { r with frontier := r.frontier.committed t.circuit i, state := s }
      (done ++ [i]) where
  frontier := inv.frontier.committed hi
  state := hs
  cost := inv.cost
  calls := by
    rw [pair?_eq hi.lt] at hbare
    show r.steps.map Step.callPoint =
      (r.frontier.schedule ++ [t.circuit.callPointAt i]).filter _
    rw [List.filter_append, ← inv.calls, List.filter_cons_of_neg (by simp [hbare]),
      List.filter_nil, List.append_nil]
  meets := inv.meets

/-- A node with a pair is scheduled with a step that meets its dependency. -/
theorem Run.Inv.commitPair (ht : t.For deps) (inv : r.Inv t deps done)
    (hi : r.frontier.Leads t.circuit done i) {p : Pair} (hp : t.pair? i = some p)
    {candidate : Candidate}
    (hworks : candidate.Works t.device t.costs r.state (r.steps.flatMap Step.ops) p) :
    ∃ ops s, apply t.device r.state p candidate.fix = .ok (ops, s) ∧
      Run.Inv t deps ⟨r.frontier.committed t.circuit i, s, r.cost + candidate.cost,
        r.steps ++ [⟨t.circuit.callPointAt i, ops⟩]⟩ (done ++ [i]) := by
  obtain ⟨swaps, gate, s, happly, htracks, hall, hkind, hcost⟩ := apply_of_works hworks
  have hops : (r.steps ++ [(⟨t.circuit.callPointAt i, swaps ++ [gate]⟩ : Step)]).flatMap Step.ops =
      r.steps.flatMap Step.ops ++ (swaps ++ [gate]) := by
    rw [List.flatMap_append, List.flatMap_singleton]
  refine ⟨swaps ++ [gate], s, happly, inv.frontier.committed hi, ?_, ?_, ?_, ?_⟩
  · rw [hops]
    exact htracks
  · rw [hops, List.map_append, List.sum_append, hcost, ← inv.cost]
  · rw [pair?_eq hi.lt] at hp
    show (r.steps ++ [_]).map Step.callPoint =
      (r.frontier.schedule ++ [t.circuit.callPointAt i]).filter _
    rw [List.map_append, List.filter_append, ← inv.calls,
      List.filter_cons_of_pos (by rw [hp]; rfl), List.filter_nil, List.map_singleton]
  · intro step hstep
    rw [List.mem_append, List.mem_singleton] at hstep
    rcases hstep with hstep | rfl
    · exact inv.meets step hstep
    · obtain ⟨dep, hdep, hcall, hpairs, -⟩ := ht.of_pair? hi.lt hp
      exact ⟨dep, hdep, hcall.symm, p, swaps, gate, hpairs, rfl, hall, hkind⟩

/-! ## Committing several nodes -/

/-- All ready nodes without a pair can be committed, one after the other. -/
theorem Run.Inv.commitFree {free : List Nat} (inv : r.Inv t deps done)
    (hready : ∀ i ∈ free, i ∈ r.frontier.ready) (hnd : free.Nodup)
    (hbare : ∀ i ∈ free, t.pair? i = none) :
    ∃ r', Greedy.commitFree t free r = .ok r' ∧ r'.Inv t deps (done ++ free) := by
  induction free generalizing r done with
  | nil =>
    refine ⟨r, rfl, ?_⟩
    rw [List.append_nil]
    exact inv
  | cons i free ih =>
    rw [List.forall_mem_cons] at hready hbare
    rw [List.nodup_cons] at hnd
    have hleads := inv.frontier.leads_of_ready hready.1
    obtain ⟨node, hnode⟩ := t.circuit.node?_eq_some hleads.lt
    have inv' := inv.commitBare hleads hbare.1 (inv.state.foldl_use node.qubits)
    obtain ⟨r', hr', hinv⟩ := ih inv'
      (fun j hj => (List.mem_erase_of_ne (ne_of_mem_of_not_mem hj hnd.1)).2 (hready.2 j hj))
      hnd.2 hbare.2
    refine ⟨r', ?_, ?_⟩
    · exact bind_eq_ok_iff.2 ⟨node, lookup_eq_ok_iff.2 hnode, bind_eq_ok_iff.2 ⟨_,
        lookup_eq_ok_iff.2 (Frontier.commit_eq hleads), hr'⟩⟩
    · rw [List.append_assoc] at hinv
      exact hinv

/-- Once there are bids for all ready nodes, one of them is the cheapest. It is the bid of a node
that leads, and the node is committed with the operations of its fix. -/
theorem commitCheapest_of_bids (h : r.frontier.Scheduled t.circuit done)
    (hready : r.frontier.ready ≠ []) {bids : List Bid}
    (hbids : r.frontier.ready.mapM (bid t r.state) = .ok bids) :
    ∃ best, firstLeast (fun b : Bid => b.candidate.cost) bids = some best ∧
      r.frontier.Leads t.circuit done best.node ∧ t.pair? best.node = some best.pair ∧
      evaluate t.device t.costs r.state best.pair = .ok best.candidate ∧
      ∀ ops s, apply t.device r.state best.pair best.candidate.fix = .ok (ops, s) →
        Greedy.commitCheapest t r = .ok ⟨r.frontier.committed t.circuit best.node, s,
          r.cost + best.candidate.cost,
          r.steps ++ [⟨t.circuit.callPointAt best.node, ops⟩]⟩ := by
  have hrel := mapM_eq_ok_iff.1 hbids
  have hne : bids ≠ [] := by
    rintro rfl
    exact hready (List.forall₂_nil_right_iff.1 hrel)
  obtain ⟨best, hbest⟩ := exists_firstLeast (fun b : Bid => b.candidate.cost) hne
  obtain ⟨i, hi, hbid⟩ := exists_of_forall₂ hrel (mem_of_firstLeast hbest)
  obtain ⟨p, hp, hbid⟩ := bind_eq_ok_iff.1 hbid
  obtain ⟨candidate, heval, hbid⟩ := bind_eq_ok_iff.1 hbid
  cases hbid
  have hleads := h.leads_of_ready hi
  obtain ⟨node, hnode⟩ := t.circuit.node?_eq_some hleads.lt
  refine ⟨_, hbest, hleads, lookup_eq_ok_iff.1 hp, heval, fun ops s happly => ?_⟩
  rw [Circuit.callPointAt_eq hnode]
  exact bind_eq_ok_iff.2 ⟨bids, hbids, bind_eq_ok_iff.2 ⟨_, lookup_eq_ok_iff.2 hbest,
    bind_eq_ok_iff.2 ⟨node, lookup_eq_ok_iff.2 hnode, bind_eq_ok_iff.2 ⟨_, happly,
      bind_eq_ok_iff.2 ⟨_, lookup_eq_ok_iff.2 (Frontier.commit_eq hleads), rfl⟩⟩⟩⟩⟩

/-- Once there are bids for all ready nodes, the cheapest can be committed. -/
theorem Run.Inv.commitCheapest (ht : t.For deps) (inv : r.Inv t deps done)
    (hready : r.frontier.ready ≠ []) {bids : List Bid}
    (hbids : r.frontier.ready.mapM (bid t r.state) = .ok bids) :
    ∃ r' i, Greedy.commitCheapest t r = .ok r' ∧ r'.Inv t deps (done ++ [i]) := by
  obtain ⟨best, -, hleads, hp, heval, hcommit⟩ :=
    commitCheapest_of_bids inv.frontier hready hbids
  obtain ⟨-, -, -, -, -, -, hdistinct⟩ := ht.of_pair? hleads.lt hp
  obtain ⟨ops, s, happly, hinv⟩ :=
    inv.commitPair ht hleads hp (works_of_evaluate inv.state hdistinct heval)
  exact ⟨_, best.node, hcommit ops s happly, hinv⟩

/-! ## Advancing -/

/-- What an advance does: it commits a lone node, or it counts the wires and then commits the ready
nodes that have no pair or, if all of them have one, the cheapest. -/
theorem advance_cases (h : r.frontier.Scheduled t.circuit done)
    (hopen : done.length < t.circuit.size) :
    (∃ i, r.frontier.Leads t.circuit done i ∧ t.circuit.arity i ≤ 1 ∧
      advance t r = .ok { r with frontier := r.frontier.committed t.circuit i }) ∨
    r.frontier.lone? t.circuit = none ∧ ∃ f : Frontier, f.Scheduled t.circuit done ∧
      (∀ w, w < t.circuit.numWires → f.Seen w) ∧ f.ready ≠ [] ∧
      ((∃ free : List Nat, free ≠ [] ∧ free.Nodup ∧ (∀ i ∈ free, i ∈ f.ready ∧ t.pair? i = none) ∧
          advance t r = Greedy.commitFree t free { r with frontier := f }) ∨
        (∀ i ∈ f.ready, ∃ p, t.pair? i = some p) ∧
          advance t r = Greedy.commitCheapest t { r with frontier := f }) := by
  unfold advance Handler.advance
  cases hlone : r.frontier.lone? t.circuit with
  | some i =>
    obtain ⟨hleads, harity⟩ := h.leads_of_lone hlone
    refine Or.inl ⟨i, hleads, harity, ?_⟩
    exact bind_eq_ok_iff.2 ⟨_, lookup_eq_ok_iff.2 (Frontier.commit_eq hleads), rfl⟩
  | none =>
    obtain ⟨f, hf, hscheduled, hseen⟩ := Frontier.mark_of_scheduled h
    -- some node is ready, so the branch that reports a circuit that is stuck is not taken
    have hready := hscheduled.ready_ne_nil hseen hopen
    refine Or.inr ⟨rfl, f, hscheduled, hseen, hready, ?_⟩
    simp only [Call.answer, bind_of_eq_ok (lookup_eq_ok_iff.2 hf),
      List.isEmpty_eq_false_iff.2 hready, Bool.false_eq_true, if_false]
    cases hfree : f.ready.filter fun i => (t.pair? i).isNone with
    | nil =>
      refine Or.inr ⟨fun i hi => ?_, rfl⟩
      have hsome := List.filter_eq_nil_iff.1 hfree i hi
      rwa [Option.isNone_iff_eq_none, ← Ne, Option.ne_none_iff_exists'] at hsome
    | cons i free =>
      refine Or.inl ⟨i :: free, List.cons_ne_nil _ _, ?_, fun j hj => ?_, rfl⟩
      · rw [← hfree]
        exact (hscheduled.ready_sorted.imp fun h => Nat.ne_of_lt h).filter _
      · rw [← hfree, List.mem_filter, Option.isNone_iff_eq_none] at hj
        exact hj

/-- Counting wires changes nothing but the counts. -/
theorem Run.Inv.marked (inv : r.Inv t deps done) {f : Frontier} (hf : f.Scheduled t.circuit done) :
    Run.Inv t deps { r with frontier := f } done where
  frontier := hf
  state := inv.state
  cost := inv.cost
  calls := by
    show _ = f.schedule.filter _
    rw [inv.calls, hf.schedule, inv.frontier.schedule]
  meets := inv.meets

/-- An advance commits nodes without a pair, or it is down to the cheapest ready dependency. -/
theorem Run.Inv.advance_cases (ht : t.For deps) (inv : r.Inv t deps done)
    (hopen : done.length < t.circuit.size) :
    (∃ r' more, advance t r = .ok r' ∧ r'.Inv t deps (done ++ more) ∧ more ≠ []) ∨
    ∃ marked : Run, advance t r = Greedy.commitCheapest t marked ∧ marked.Inv t deps done ∧
      marked.frontier.ready ≠ [] ∧ ∀ i ∈ marked.frontier.ready, ∃ p, t.pair? i = some p := by
  rcases Greedy.advance_cases inv.frontier hopen with ⟨i, hleads, harity, hadvance⟩ |
    ⟨-, f, hf, -, hready, ⟨free, hne, hnd, hfree, hadvance⟩ | ⟨hpairs, hadvance⟩⟩
  · exact Or.inl ⟨_, [i], hadvance,
      inv.commitBare hleads (ht.pair?_eq_none hleads.lt harity) inv.state, List.cons_ne_nil _ _⟩
  · obtain ⟨r', hr', hinv⟩ := (inv.marked hf).commitFree (fun j hj => (hfree j hj).1) hnd
      fun j hj => (hfree j hj).2
    exact Or.inl ⟨r', free, hadvance.trans hr', hinv, hne⟩
  · exact Or.inr ⟨_, hadvance, inv.marked hf, hready, hpairs⟩

/-- **One advance**: what it answers has more nodes scheduled, and on a connected device it does
answer. -/
theorem Run.Inv.advance (ht : t.For deps) (inv : r.Inv t deps done)
    (hopen : done.length < t.circuit.size) :
    (∀ r', Greedy.advance t r = .ok r' →
      ∃ more, r'.Inv t deps (done ++ more) ∧ more ≠ []) ∧
    (t.device.Connected → ∃ r', Greedy.advance t r = .ok r') := by
  rcases inv.advance_cases ht hopen with
    ⟨r', more, hadvance, hinv, hmore⟩ | ⟨marked, hadvance, hinv, hready, hpairs⟩
  · rw [hadvance]
    refine ⟨?_, fun _ => ⟨r', rfl⟩⟩
    rintro _ ⟨⟩
    exact ⟨more, hinv, hmore⟩
  · rw [hadvance]
    constructor
    · intro r' hr'
      obtain ⟨bids, hbids, -⟩ := bind_eq_ok_iff.1 hr'
      obtain ⟨r'', i, hr'', hinv'⟩ := hinv.commitCheapest ht hready hbids
      rw [hr'] at hr''
      cases hr''
      exact ⟨[i], hinv', List.cons_ne_nil _ _⟩
    · intro hconn
      have hbids : ∃ bids, marked.frontier.ready.mapM (bid t marked.state) = .ok bids := by
        refine exists_mapM fun i hi => ?_
        obtain ⟨p, hp⟩ := hpairs i hi
        obtain ⟨-, -, -, -, hcontrol, htarget, -⟩ :=
          ht.of_pair? (hinv.frontier.leads_of_ready hi).lt hp
        obtain ⟨candidate, hcandidate⟩ :=
          exists_evaluate t.costs hinv.state.layout hconn hcontrol htarget
        exact ⟨_, bind_eq_ok_iff.2 ⟨p, lookup_eq_ok_iff.2 hp, bind_eq_ok_iff.2 ⟨candidate,
          hcandidate, rfl⟩⟩⟩
      obtain ⟨bids, hbids⟩ := hbids
      obtain ⟨r', -, hr', -⟩ := hinv.commitCheapest ht hready hbids
      exact ⟨r', hr'⟩

/-- **All advances**: with fuel for the open nodes, what is answered has all nodes scheduled, and on
a connected device there is an answer. -/
theorem Run.Inv.advanceAll (ht : t.For deps) {fuel : Nat} (inv : r.Inv t deps done)
    (hfuel : t.circuit.size ≤ done.length + fuel) :
    (∀ r', Greedy.advanceAll t fuel r = .ok r' →
      ∃ done', r'.Inv t deps done' ∧ t.circuit.size ≤ done'.length) ∧
    (t.device.Connected → ∃ r', Greedy.advanceAll t fuel r = .ok r') := by
  induction fuel generalizing r done with
  | zero =>
    refine ⟨?_, fun _ => ⟨r, rfl⟩⟩
    rintro _ ⟨⟩
    exact ⟨done, inv, hfuel⟩
  | succ fuel ih =>
    rw [Greedy.advanceAll, Handler.advanceAll]
    have hlen : r.frontier.schedule.length = done.length := by
      rw [inv.frontier.schedule, List.length_map]
    split_ifs with hdone
    · rw [hlen] at hdone
      refine ⟨?_, fun _ => ⟨r, rfl⟩⟩
      rintro _ ⟨⟩
      exact ⟨done, inv, hdone⟩
    · rw [hlen, Nat.not_le] at hdone
      -- every advance schedules a node, so one unit of fuel less is enough for the rest
      obtain ⟨hsound, htotal⟩ := inv.advance ht hdone
      have hstep : ∀ {next}, Greedy.advance t r = .ok next →
          (∀ r', Greedy.advanceAll t fuel next = .ok r' →
            ∃ done', r'.Inv t deps done' ∧ t.circuit.size ≤ done'.length) ∧
          (t.device.Connected → ∃ r', Greedy.advanceAll t fuel next = .ok r') := by
        intro next hnext
        obtain ⟨more, hinv, hmore⟩ := hsound next hnext
        have hpos := List.length_pos_iff.2 hmore
        exact ih hinv (by rw [List.length_append]; omega)
      constructor
      · intro r' hr'
        obtain ⟨next, hnext, hr'⟩ := bind_eq_ok_iff.1 hr'
        exact (hstep hnext).1 r' hr'
      · intro hconn
        obtain ⟨next, hnext⟩ := htotal hconn
        obtain ⟨r', hr'⟩ := (hstep hnext).2 hconn
        exact ⟨r', bind_eq_ok_iff.2 ⟨next, hnext, hr'⟩⟩

/-! ## From the start to the end -/

/-- The run before the first advance. -/
def startRun (c : Circuit) (initial : List Nat) : Run :=
  ⟨.start c, ⟨⟨initial, inverse initial⟩, initial, []⟩, 0, []⟩

theorem tracks_startRun {d : Device} (c : Circuit) {initial : List Nat}
    (hinitial : IsArrangement d.size initial) : (startRun c initial).state.Tracks d [] :=
  ⟨⟨hinitial, rfl⟩, hinitial, .nil _, List.forall_mem_nil _⟩

theorem inv_startRun (ht : t.For deps) {initial : List Nat}
    (hinitial : IsArrangement t.device.size initial) :
    (startRun t.circuit initial).Inv t deps
      ((List.range t.circuit.size).filter fun i => (t.circuit.wires i).isEmpty) := by
  have hscheduled := Frontier.scheduled_start t.circuit
  refine ⟨hscheduled, tracks_startRun t.circuit hinitial, rfl, ?_, ?_⟩
  · -- nodes without a wire have no pair
    symm
    show (Frontier.start t.circuit).schedule.filter _ = []
    rw [hscheduled.schedule, List.filter_eq_nil_iff]
    intro k hk
    obtain ⟨i, hi, rfl⟩ := List.mem_map.1 hk
    have hlt := hscheduled.lt i hi
    have hwires := List.isEmpty_iff.1 (List.mem_filter.1 hi).2
    have hnone := ht.pair?_eq_none hlt (by rw [Circuit.arity, hwires]; exact Nat.zero_le 1)
    rw [← pair?_eq hlt, hnone]
    exact Bool.false_ne_true
  · exact List.forall_mem_nil _

/-- The steps of a run that has scheduled all nodes stand at the dependencies' call points. -/
theorem Run.Inv.calls_perm (ht : t.For deps) (inv : r.Inv t deps done)
    (hall : t.circuit.size ≤ done.length) :
    (r.steps.map Step.callPoint).Perm (deps.map Dependency.callPoint) := by
  have hschedule : r.frontier.schedule.Perm (t.circuit.nodes.toList.map Node.callPoint) := by
    rw [inv.frontier.schedule, t.circuit.map_callPoint_nodes]
    exact (inv.frontier.done_perm hall).map _
  -- the call points of nodes that have a pair are those of the dependencies, each once
  rw [inv.calls]
  refine (hschedule.filter _).trans ?_
  refine (List.perm_ext_iff_of_nodup (ht.carries.nodup.filter _) ht.carries.distinct).2 fun k => ?_
  rw [List.mem_filter, ht.table.lookup_isSome_iff]
  constructor
  · exact fun hk => hk.2
  · intro hk
    obtain ⟨dep, hdep, rfl⟩ := List.mem_map.1 hk
    exact ⟨ht.carries.carried dep hdep, hk⟩

/-- **A run that has scheduled all nodes replays at its cost.** -/
theorem Run.Inv.replay_eq (ht : t.For deps) (inv : r.Inv t deps done)
    (hall : t.circuit.size ≤ done.length) (hfits : r.cost < 2 ^ 32) :
    replay t.device deps ⟨r.state.initial, r.cost, r.steps⟩ t.costs = .ok r.cost := by
  refine replay_of_meets (s := ⟨r.state.initial, r.cost, r.steps⟩) inv.state.initial ?_
    ht.carries.distinct (inv.calls_perm ht hall) ?_ ⟨_, inv.state.runs⟩ inv.cost hfits
  · exact Dependencies.single_of_validate ht.valid
  · intro step hstep
    obtain ⟨dep, hdep, hmeets⟩ := inv.meets step hstep
    exact ⟨dep, hdep, hmeets.meets⟩

end Run

/-! ## Before and after the loop -/

/-- What is done before the first round: the task and the run that the loop starts from. -/
def setUp (d : Device) (costs : CostModel) (placement : Placement) (c : Circuit)
    (deps : Dependencies) : Except AllocError (Task × Run) := do
  if d.size < c.numQubits then .error (.qubitOutOfRange (c.numQubits - 1) d.size)
  deps.validate d.size
  let pairs ← deps.table
  let initial ← placement.find d deps
  checkMapping initial d.size
  let layout ← Layout.ofMapping initial
  return (⟨d, costs, c, pairs⟩, ⟨.start c, ⟨layout, initial, []⟩, 0, []⟩)

/-- What is done after the last round. -/
def conclude (final : Run) : Except AllocError Outcome := do
  let cost ← narrowCost final.cost
  return ⟨⟨final.state.initial, cost, final.steps⟩, final.frontier.schedule⟩

section Solve

variable {d : Device} {costs : CostModel} {placement : Placement} {c : Circuit}
  {deps : Dependencies}

/-- To allocate a circuit is to set up, to advance, and to conclude. -/
theorem solveCircuit_eq_setUp (d : Device) (costs : CostModel) (placement : Placement) (c : Circuit)
    (deps : Dependencies) :
    solveCircuit d costs placement c deps =
      setUp d costs placement c deps >>= fun start =>
        advanceAll start.1 c.size start.2 >>= conclude := by
  unfold solveCircuit setUp
  split_ifs
  · rfl
  · simp only [bind_assoc, pure_bind]
    rfl

/-- Valid dependencies have a table and a first mapping, and with these every circuit that the device
is large enough for is set up. -/
theorem setUp_of_validate (costs : CostModel) (placement : Placement)
    (hvalid : deps.validate d.size = .ok ()) :
    ∃ pairs initial, Dependencies.IsTable deps pairs ∧ IsArrangement d.size initial ∧
      ∀ c : Circuit, c.numQubits ≤ d.size →
        setUp d costs placement c deps = .ok (⟨d, costs, c, pairs⟩, startRun c initial) := by
  obtain ⟨pairs, htable⟩ := Dependencies.exists_table (Dependencies.single_of_validate hvalid)
  obtain ⟨initial, hfind, hinitial⟩ := placement.exists_find d hvalid
  have hlen : IsArrangement initial.length initial := by rwa [hinitial.length_eq]
  refine ⟨pairs, initial, (Dependencies.isTable_of_table htable).1, hinitial, fun c hsize => ?_⟩
  rw [setUp, if_neg (Nat.not_lt.2 hsize)]
  rw [bind_of_eq_ok hvalid, bind_of_eq_ok htable, bind_of_eq_ok hfind,
    bind_of_eq_ok (checkMapping_eq_ok_iff.2 hinitial),
    bind_of_eq_ok (ofMapping_eq_ok_iff.2 ⟨hlen, rfl⟩)]
  rfl

/-- Valid dependencies on a device that is large enough can be set up. -/
theorem exists_setUp (costs : CostModel) (placement : Placement) (hsize : c.numQubits ≤ d.size)
    (hvalid : deps.validate d.size = .ok ()) :
    ∃ t start, setUp d costs placement c deps = .ok (t, start) := by
  obtain ⟨pairs, initial, -, -, hsetUp⟩ := setUp_of_validate costs placement hvalid
  exact ⟨_, _, hsetUp c hsize⟩

/-- What the set-up gives: the dependencies are valid, and the loop starts from their table and an
arrangement of the device's qubits. -/
theorem of_setUp {t : Task} {start : Run} (h : setUp d costs placement c deps = .ok (t, start)) :
    deps.validate d.size = .ok () ∧ ∃ pairs initial, Dependencies.IsTable deps pairs ∧
      IsArrangement d.size initial ∧ t = ⟨d, costs, c, pairs⟩ ∧ start = startRun c initial := by
  unfold setUp at h
  split_ifs at h
  · cases h
  · obtain ⟨⟨⟩, hvalid, h⟩ := bind_eq_ok_iff.1 h
    obtain ⟨pairs, htable, h⟩ := bind_eq_ok_iff.1 h
    obtain ⟨initial, -, h⟩ := bind_eq_ok_iff.1 h
    obtain ⟨⟨⟩, hcheck, h⟩ := bind_eq_ok_iff.1 h
    obtain ⟨layout, hlayout, h⟩ := bind_eq_ok_iff.1 h
    cases h
    obtain ⟨-, rfl⟩ := ofMapping_eq_ok_iff.1 hlayout
    exact ⟨hvalid, pairs, initial, (Dependencies.isTable_of_table htable).1,
      checkMapping_eq_ok_iff.1 hcheck, rfl, rfl⟩

/-- If the circuit carries the dependencies, the task is for them and the run keeps the invariant. -/
theorem inv_of_setUp (hcarries : deps.validate d.size = .ok () → c.Carries deps) {t : Task}
    {start : Run} (h : setUp d costs placement c deps = .ok (t, start)) :
    t.device = d ∧ t.costs = costs ∧ t.circuit = c ∧ t.For deps ∧
      ∃ done, start.Inv t deps done := by
  obtain ⟨hvalid, pairs, initial, htable, hinitial, rfl, rfl⟩ := of_setUp h
  have ht : Task.For ⟨d, costs, c, pairs⟩ deps := ⟨hvalid, hcarries hvalid, htable⟩
  exact ⟨rfl, rfl, rfl, ht, _, inv_startRun ht hinitial⟩

/-- A solution comes from a run that keeps the invariant and has scheduled all nodes. -/
theorem exists_run_of_solveCircuit (hcarries : deps.validate d.size = .ok () → c.Carries deps)
    {outcome : Greedy.Outcome} (h : solveCircuit d costs placement c deps = .ok outcome) :
    ∃ (t : Task) (final : Run) (all : List Nat), t.device = d ∧ t.costs = costs ∧
      t.circuit = c ∧ t.For deps ∧ final.Inv t deps all ∧ t.circuit.size ≤ all.length ∧
      final.cost < 2 ^ 32 ∧
      outcome = ⟨⟨final.state.initial, final.cost, final.steps⟩, final.frontier.schedule⟩ := by
  rw [solveCircuit_eq_setUp] at h
  obtain ⟨⟨t, start⟩, hsetUp, h⟩ := bind_eq_ok_iff.1 h
  obtain ⟨final, hfinal, h⟩ := bind_eq_ok_iff.1 h
  obtain ⟨cost, hcost, h⟩ := bind_eq_ok_iff.1 h
  cases h
  obtain ⟨hfits, rfl⟩ := narrowCost_eq_ok_iff.1 hcost
  obtain ⟨hdevice, hcosts, rfl, ht, done, hinv⟩ := inv_of_setUp hcarries hsetUp
  obtain ⟨all, hall, hle⟩ := (hinv.advanceAll ht (Nat.le_add_left _ _)).1 final hfinal
  exact ⟨t, final, all, hdevice, hcosts, rfl, ht, hall, hle, hfits, rfl⟩

/-- A solution starts from an arrangement of the device's qubits. -/
theorem isArrangement_of_solveCircuit (hcarries : deps.validate d.size = .ok () → c.Carries deps)
    {outcome : Greedy.Outcome} (h : solveCircuit d costs placement c deps = .ok outcome) :
    IsArrangement d.size outcome.solution.initial := by
  obtain ⟨t, final, all, rfl, -, -, -, hinv, -, -, rfl⟩ := exists_run_of_solveCircuit hcarries h
  exact hinv.state.initial

/-- What a solution of a circuit that carries its dependencies is like. -/
theorem of_solveCircuit (hcarries : deps.validate d.size = .ok () → c.Carries deps)
    {outcome : Greedy.Outcome} (h : solveCircuit d costs placement c deps = .ok outcome) :
    replay d deps outcome.solution costs = .ok outcome.solution.cost ∧
      ∀ step ∈ outcome.solution.steps, ∃ dep ∈ deps, step.MeetsDirectly dep := by
  obtain ⟨t, final, all, rfl, rfl, -, ht, hinv, hall, hfits, rfl⟩ :=
    exists_run_of_solveCircuit hcarries h
  exact ⟨hinv.replay_eq ht hall hfits, hinv.meets⟩

end Solve

end Greedy

end QubitAllocation
