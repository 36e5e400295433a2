import QubitAllocation.Proofs.Greedy.Soundness
import QubitAllocation.Proofs.Safety.Basic

/-!
# Greedy allocation is proper

A circuit may be allocated with dependencies that have nothing to do with it, and its nodes may name
qubits that it does not declare. Then steps need not meet dependencies, but two things are still
known of a run (`Run.Safe`): which nodes have been scheduled, so that counts and fronts are right,
and that the state tracks some operations, so that its layout is consistent.

`Passes` lists the changes that the strategy makes to a run. Each of them keeps runs safe
(`Passes.safe`), and a round is made of them (`Passes.advance`). From a safe run a round is proper
(`proper_advance`): some node is ready, and a fix that was evaluated brings its pair together. So
allocating any circuit with any dependencies is proper (`proper_solveCircuit`), and what is looked
up on the way is in range (`Run.InRange`).
-/

set_option autoImplicit false

namespace QubitAllocation.Greedy

open QubitAllocation.Outcome Arrangement

/-- Every pair of the task is on two qubits of the device. -/
def Task.Valid (t : Task) : Prop :=
  ∀ k p, t.pairs.lookup k = some p →
    p.control < t.device.size ∧ p.target < t.device.size ∧ p.control ≠ p.target

/-- The frontier knows the scheduled nodes, and the state tracks some operations. -/
def Run.Safe (t : Task) (r : Run) : Prop :=
  ∃ done ops, r.frontier.Scheduled t.circuit done ∧ r.state.Tracks t.device ops

/-- The runs that an allocation passes through. From one to the next it commits a lone node, counts
the wires, commits a ready node without a pair, or commits the cheapest ready dependency. -/
inductive Passes (t : Task) (start : Run) : Run → Prop
  | refl : Passes t start start
  | lone {r : Run} {i : Nat} {f : Frontier} : Passes t start r →
      r.frontier.lone? t.circuit = some i → r.frontier.commit t.circuit i = some f →
      Passes t start { r with frontier := f }
  | counted {r : Run} {f : Frontier} : Passes t start r → r.frontier.mark t.circuit = some f →
      Passes t start { r with frontier := f }
  | free {r : Run} {i : Nat} {node : Node} {f : Frontier} : Passes t start r →
      i ∈ r.frontier.ready → t.pair? i = none → t.circuit.node? i = some node →
      r.frontier.commit t.circuit i = some f →
      Passes t start { r with frontier := f, state := node.qubits.foldl State.use r.state }
  | cheapest {r r' : Run} : Passes t start r → commitCheapest t r = .ok r' → Passes t start r'

section Step

variable {t : Task} {r r' : Run} {i : Nat} {f : Frontier}

theorem Task.Valid.of_pair? (ht : t.Valid) {p : Pair} (hp : t.pair? i = some p) :
    p.control < t.device.size ∧ p.target < t.device.size ∧ p.control ≠ p.target := by
  obtain ⟨node, -, hlookup⟩ := Option.bind_eq_some_iff.1 hp
  exact ht _ _ hlookup

/-! ## What one change keeps -/

theorem Run.Safe.lone (h : r.Safe t) (hlone : r.frontier.lone? t.circuit = some i)
    (hf : r.frontier.commit t.circuit i = some f) : Run.Safe t { r with frontier := f } := by
  obtain ⟨done, ops, hscheduled, htracks⟩ := h
  have hleads := (hscheduled.leads_of_lone hlone).1
  rw [Frontier.commit_eq hleads] at hf
  cases hf
  exact ⟨done ++ [i], ops, hscheduled.committed hleads, htracks⟩

theorem Run.Safe.counted (h : r.Safe t) (hf : r.frontier.mark t.circuit = some f) :
    Run.Safe t { r with frontier := f } := by
  obtain ⟨done, ops, hscheduled, htracks⟩ := h
  obtain ⟨f', hf', hscheduled', -⟩ := Frontier.mark_of_scheduled hscheduled
  obtain rfl := Option.some.inj (hf.symm.trans hf')
  exact ⟨done, ops, hscheduled', htracks⟩

/-- A node that names undeclared qubits marks them as used like any other; no operation is
emitted. -/
theorem Run.Safe.free (h : r.Safe t) (hi : i ∈ r.frontier.ready)
    (hf : r.frontier.commit t.circuit i = some f) (qubits : List Nat) :
    Run.Safe t { r with frontier := f, state := qubits.foldl State.use r.state } := by
  obtain ⟨done, ops, hscheduled, htracks⟩ := h
  have hleads := hscheduled.leads_of_ready hi
  rw [Frontier.commit_eq hleads] at hf
  cases hf
  exact ⟨done ++ [i], ops, hscheduled.committed hleads, htracks.foldl_use qubits⟩

/-- Once there are bids for all ready nodes, the cheapest can be committed: its fix brings the pair
together, whatever the node is. -/
theorem Run.Safe.exists_commitCheapest (ht : t.Valid) (h : r.Safe t)
    (hready : r.frontier.ready ≠ []) {bids : List Bid}
    (hbids : r.frontier.ready.mapM (bid t r.state) = .ok bids) :
    ∃ r', commitCheapest t r = .ok r' ∧ r'.Safe t := by
  obtain ⟨done, ops, hscheduled, htracks⟩ := h
  obtain ⟨best, -, hleads, hp, heval, hcommit⟩ := commitCheapest_of_bids hscheduled hready hbids
  have hdistinct := (ht.of_pair? hp).2.2
  obtain ⟨swaps, gate, s, happly, htracks', -⟩ :=
    apply_of_works (works_of_evaluate htracks hdistinct heval)
  exact ⟨_, hcommit _ s happly, _, _, hscheduled.committed hleads, htracks'⟩

/-- Before the cheapest is committed there are bids, and there is a best one, so some node is
ready. -/
theorem bids_of_commitCheapest (hr : commitCheapest t r = .ok r') :
    r.frontier.ready ≠ [] ∧ ∃ bids, r.frontier.ready.mapM (bid t r.state) = .ok bids := by
  obtain ⟨bids, hbids, hrest⟩ := bind_eq_ok_iff.1 hr
  obtain ⟨best, hbest, -⟩ := bind_eq_ok_iff.1 hrest
  refine ⟨fun hnil => ?_, bids, hbids⟩
  rw [hnil] at hbids
  cases hbids
  cases hbest

theorem Run.Safe.cheapest (ht : t.Valid) (h : r.Safe t) (hr : commitCheapest t r = .ok r') :
    r'.Safe t := by
  obtain ⟨hready, bids, hbids⟩ := bids_of_commitCheapest hr
  obtain ⟨r'', hr'', hsafe⟩ := h.exists_commitCheapest ht hready hbids
  rw [hr] at hr''
  cases hr''
  exact hsafe

end Step

/-! ## What a run keeps -/

section Runs

variable {t : Task} {start r r' : Run}

/-- **Every run that is passed through is safe.** -/
theorem Passes.safe (ht : t.Valid) (hstart : start.Safe t) (h : Passes t start r) : r.Safe t := by
  induction h with
  | refl => exact hstart
  | lone _ hlone hf ih => exact ih.lone hlone hf
  | counted _ hf ih => exact ih.counted hf
  | free _ hi _ _ hf ih => exact ih.free hi hf _
  | cheapest _ hr ih => exact ih.cheapest ht hr

theorem ready_of_commit {c : Circuit} {f f' : Frontier} {i : Nat} (h : f.commit c i = some f') :
    f'.ready = f.ready.erase i := by
  obtain ⟨node, -, h⟩ := Option.bind_eq_some_iff.1 h
  obtain ⟨cursor, -, h⟩ := Option.bind_eq_some_iff.1 h
  cases h
  rfl

/-- The other nodes stay ready while one is committed. -/
theorem ready_of_commit_cons {c : Circuit} {f f' : Frontier} {i : Nat} {free : List Nat}
    (hf : f.commit c i = some f') (hready : ∀ j ∈ i :: free, j ∈ f.ready)
    (hnd : (i :: free).Nodup) : ∀ j ∈ free, j ∈ f'.ready := by
  intro j hj
  rw [ready_of_commit hf]
  have hne : j ≠ i := ne_of_mem_of_not_mem hj (List.nodup_cons.1 hnd).1
  exact (List.mem_erase_of_ne hne).2 (hready j (List.mem_cons_of_mem _ hj))

theorem Passes.commitFree {free : List Nat} (h : Passes t start r)
    (hready : ∀ i ∈ free, i ∈ r.frontier.ready) (hbare : ∀ i ∈ free, t.pair? i = none)
    (hnd : free.Nodup) (hr : Greedy.commitFree t free r = .ok r') : Passes t start r' := by
  induction free generalizing r with
  | nil =>
    cases hr
    exact h
  | cons i free ih =>
    obtain ⟨node, hnode, hr⟩ := bind_eq_ok_iff.1 hr
    obtain ⟨f, hf, hr⟩ := bind_eq_ok_iff.1 hr
    rw [lookup_eq_ok_iff] at hnode hf
    have hnext := h.free (hready i List.mem_cons_self) (hbare i List.mem_cons_self) hnode hf
    exact ih hnext (ready_of_commit_cons hf hready hnd)
      (fun j hj => hbare j (List.mem_cons_of_mem _ hj)) (List.nodup_cons.1 hnd).2 hr

/-- **A round is made of the changes that are listed.** -/
theorem Passes.advance (ht : t.Valid) (hstart : start.Safe t) (h : Passes t start r)
    (hr : Greedy.advance t r = .ok r') : Passes t start r' := by
  unfold Greedy.advance Handler.advance at hr
  cases hlone : r.frontier.lone? t.circuit with
  | some i =>
    simp only [hlone] at hr
    obtain ⟨f, hf, hr⟩ := bind_eq_ok_iff.1 hr
    cases hr
    exact h.lone hlone (lookup_eq_ok_iff.1 hf)
  | none =>
    simp only [hlone] at hr
    obtain ⟨f, hf, hr⟩ := bind_eq_ok_iff.1 hr
    -- what is free is read off after counting, and the ready nodes are distinct
    have hmarked := h.counted (lookup_eq_ok_iff.1 hf)
    obtain ⟨done, -, hscheduled, -⟩ := hmarked.safe ht hstart
    split_ifs at hr
    cases hfree : f.ready.filter fun i => (t.pair? i).isNone with
    | nil =>
      simp only [hfree] at hr
      exact hmarked.cheapest hr
    | cons i free =>
      simp only [hfree] at hr
      refine hmarked.commitFree (fun j hj => ?_) (fun j hj => ?_) ?_ hr
      · rw [← hfree] at hj
        exact (List.mem_filter.1 hj).1
      · rw [← hfree] at hj
        exact Option.isNone_iff_eq_none.1 (List.mem_filter.1 hj).2
      · rw [← hfree]
        exact (hscheduled.ready_sorted.imp fun h => Nat.ne_of_lt h).filter _

/-! ## Rounds are proper -/

theorem proper_commitFree {free : List Nat} (h : r.Safe t)
    (hready : ∀ i ∈ free, i ∈ r.frontier.ready) (hnd : free.Nodup) :
    Proper (Greedy.commitFree t free r) := by
  induction free generalizing r with
  | nil => exact proper_ok r
  | cons i free ih =>
    have hi := hready i List.mem_cons_self
    have hsafe := h
    -- a ready node leads all its wires, so it can be committed
    obtain ⟨done, -, hscheduled, -⟩ := h
    have hleads := hscheduled.leads_of_ready hi
    obtain ⟨node, hnode⟩ := t.circuit.node?_eq_some hleads.lt
    refine (proper_lookup hnode).bind fun node' _ => ?_
    refine (proper_lookup (Frontier.commit_eq hleads)).bind fun f hf => ?_
    rw [lookup_eq_ok_iff] at hf
    exact ih (hsafe.free hi hf node'.qubits) (ready_of_commit_cons hf hready hnd)
      (List.nodup_cons.1 hnd).2

/-- A bid is refused only if no route joins the qubits of its pair. -/
theorem proper_bid (ht : t.Valid) (h : r.Safe t) {i : Nat} {p : Pair} (hp : t.pair? i = some p) :
    Proper (bid t r.state i) := by
  obtain ⟨-, ops, -, htracks⟩ := h
  refine (proper_lookup hp).bind fun p' hp' => ?_
  obtain rfl := Option.some.inj (hp.symm.trans (lookup_eq_ok_iff.1 hp'))
  obtain ⟨hcontrol, htarget, -⟩ := ht.of_pair? hp
  refine Proper.bind ?_ fun _ _ => proper_pure _
  rcases evaluate_cases t.costs htracks.layout hcontrol htarget with
    hok | ⟨u, v, e, -, -, hroute, heval⟩
  · exact proper_of_exists hok
  · rw [heval, Device.error_of_route hroute]
    exact proper_error_iff.2 rfl

theorem proper_commitCheapest (ht : t.Valid) (h : r.Safe t) (hready : r.frontier.ready ≠ [])
    (hpairs : ∀ i ∈ r.frontier.ready, ∃ p, t.pair? i = some p) :
    Proper (commitCheapest t r) := by
  intro e he
  rcases bind_eq_error_iff.1 he with hbids | ⟨bids, hbids, -⟩
  · refine proper_mapM (fun i hi => ?_) e hbids
    obtain ⟨p, hp⟩ := hpairs i hi
    exact proper_bid ht h hp
  · -- with all bids in, the cheapest is committed
    obtain ⟨r', hr', -⟩ := h.exists_commitCheapest ht hready hbids
    rw [he] at hr'
    cases hr'

/-- **A round from a safe run is proper**, as long as nodes are open. -/
theorem proper_advance (ht : t.Valid) (h : r.Safe t)
    (hopen : r.frontier.schedule.length < t.circuit.size) : Proper (Greedy.advance t r) := by
  obtain ⟨done, ops, hscheduled, htracks⟩ := h
  rw [hscheduled.schedule, List.length_map] at hopen
  rcases advance_cases hscheduled hopen with ⟨i, -, -, hadvance⟩ |
    ⟨-, f, hf, -, hready, ⟨free, -, hnd, hfree, hadvance⟩ | ⟨hpairs, hadvance⟩⟩
  · rw [hadvance]
    exact proper_ok _
  · rw [hadvance]
    exact proper_commitFree ⟨done, ops, hf, htracks⟩ (fun i hi => (hfree i hi).1) hnd
  · rw [hadvance]
    exact proper_commitCheapest ht ⟨done, ops, hf, htracks⟩ hready hpairs

theorem proper_advanceAll (ht : t.Valid) (h : r.Safe t) (fuel : Nat) :
    Proper (advanceAll t fuel r) := by
  induction fuel generalizing r with
  | zero => exact proper_ok r
  | succ fuel ih =>
    rw [advanceAll, Handler.advanceAll]
    split_ifs with hdone
    · exact proper_ok r
    · refine (proper_advance ht h (Nat.not_le.1 hdone)).bind fun next hnext => ?_
      exact ih ((Passes.refl.advance ht h hnext).safe ht h)

end Runs

/-! ## Allocations -/

section Solve

variable {d : Device} {costs : CostModel} {placement : Placement} {c : Circuit}
  {deps : Dependencies}

/-- The table of valid dependencies makes a valid task. -/
theorem valid_of_isTable {pairs : List (Nat × Pair)} (hvalid : deps.validate d.size = .ok ())
    (htable : deps.IsTable pairs) : Task.Valid ⟨d, costs, c, pairs⟩ := by
  intro k p hp
  rw [Dependencies.lookup_eq_some_iff_mem htable.nodup] at hp
  obtain ⟨dep, hdep, -, hpairs⟩ := htable.source _ hp
  exact Dependencies.bounds_of_mem hvalid hdep hpairs

theorem safe_startRun (t : Task) {initial : List Nat}
    (hinitial : IsArrangement t.device.size initial) : (startRun t.circuit initial).Safe t :=
  ⟨_, [], Frontier.scheduled_start t.circuit, tracks_startRun t.circuit hinitial⟩

theorem safe_of_setUp {t : Task} {start : Run}
    (h : setUp d costs placement c deps = .ok (t, start)) : t.Valid ∧ start.Safe t := by
  obtain ⟨hvalid, pairs, initial, htable, hinitial, rfl, rfl⟩ := of_setUp h
  exact ⟨valid_of_isTable hvalid htable, safe_startRun ⟨d, costs, c, pairs⟩ hinitial⟩

theorem proper_setUp (d : Device) (costs : CostModel) (placement : Placement) (c : Circuit)
    (deps : Dependencies) : Proper (setUp d costs placement c deps) := by
  unfold setUp
  split_ifs
  · exact proper_error_iff.2 rfl
  · refine (deps.proper_validate d.size).bind fun _ _ => deps.proper_table.bind fun _ _ => ?_
    refine (placement.proper_find d deps).bind fun initial _ => ?_
    refine (proper_checkMapping initial d.size).bind fun _ _ => ?_
    exact (Layout.proper_ofMapping initial).bind fun _ _ => proper_pure _

/-- **Greedy allocation of a circuit is proper**, whatever the circuit and the dependencies are. -/
theorem proper_solveCircuit (d : Device) (costs : CostModel) (placement : Placement) (c : Circuit)
    (deps : Dependencies) : Proper (solveCircuit d costs placement c deps) := by
  rw [solveCircuit_eq_setUp]
  refine (proper_setUp d costs placement c deps).bind fun start hstart => ?_
  obtain ⟨ht, hsafe⟩ := safe_of_setUp hstart
  refine (proper_advanceAll ht hsafe c.size).bind fun final _ => ?_
  exact (proper_narrowCost final.cost).bind fun _ _ => proper_pure _

theorem proper_solve (d : Device) (costs : CostModel) (placement : Placement)
    (deps : Dependencies) : Proper (solve d costs placement deps) :=
  (proper_solveCircuit d costs placement _ deps).bind fun _ _ => proper_pure _

end Solve

/-! ## Look-ups on the way -/

/-- What a run looks up is there: there is a front and a count for every wire, wires are only named
in range, the node at a front is a node of the circuit and still waits for the wire if that has not
been counted, ready nodes are nodes of the circuit, and the layout and the first mapping are
arrangements of the device's qubits. -/
structure Run.InRange (t : Task) (r : Run) : Prop where
  streams : r.frontier.cursor.streams.size = t.circuit.numWires
  positions : r.frontier.cursor.positions.size = t.circuit.numWires
  counted : r.frontier.counted.size = t.circuit.numWires
  wires : ∀ i w, w ∈ t.circuit.wires i → w < t.circuit.numWires
  front : ∀ w i, r.frontier.cursor.front w = some i → i < t.circuit.size ∧
    (r.frontier.counted[w]? = some false → ∃ left, r.frontier.waiting[i]? = some (left + 1))
  ready : ∀ i ∈ r.frontier.ready, i < t.circuit.size
  layout : r.state.layout.Consistent t.device.size
  initial : IsArrangement t.device.size r.state.initial

theorem Run.Safe.inRange {t : Task} {r : Run} (h : r.Safe t) : r.InRange t := by
  obtain ⟨done, ops, hscheduled, htracks⟩ := h
  refine ⟨hscheduled.left.streams_size, hscheduled.left.positions_size, hscheduled.counted_size,
    ?_, ?_, ?_, htracks.layout, htracks.initial⟩
  · intro i w hw
    exact (Circuit.lt_of_mem_wires hw).1
  · intro w i hfront
    have hw := (hscheduled.left.front_eq_some_iff.1 hfront).1
    refine ⟨(Circuit.lt_of_mem_wires hw).2, fun hcounted => ?_⟩
    obtain ⟨left, hleft, -⟩ := hscheduled.waiting_front hcounted hfront
    exact ⟨left, hleft⟩
  · intro i hi
    exact (hscheduled.leads_of_ready hi).lt

end QubitAllocation.Greedy
