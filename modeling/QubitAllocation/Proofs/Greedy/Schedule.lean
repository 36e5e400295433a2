import QubitAllocation.Proofs.Greedy.Soundness

/-!
# Greedy schedules keep the order of every wire

`Finishes t r out` is the loop of the greedy strategy without a bound on its rounds: it advances for
as long as nodes are open and ends in `out`. From a run that keeps the invariant the loop always
ends, and advancing as often as there are nodes ends in the same (`Run.Inv.finishes_advanceAll`). It
is refused only where no route joins two qubits (`Finishes.unreachable`), so never for want of a
ready node.

For the circuit of a program, call points are the places of statements. So the schedule of a
solution has every statement once, statements that share a qubit or a classical bit stand in it in
program order, and the steps of the solution follow it (`solveCircuit_schedules`).
-/

set_option autoImplicit false

namespace QubitAllocation

/-- The statements have a qubit or a classical bit in common. -/
def Statement.Shares (s s' : Statement) : Prop :=
  (∃ q ∈ s.qubits, q ∈ s'.qubits) ∨ ∃ b ∈ s.clbits, b ∈ s'.clbits

/-! ## The circuit of a program -/

namespace Circuit

variable {p : Program} {i j : Nat}

theorem node?_circuit (p : Program) (i : Nat) :
    p.circuit.node? i = (p.statements[i]?).map fun s => ⟨i, s.name, s.qubits, s.clbits⟩ := by
  rw [Program.circuit, node?_ofNodes, List.getElem?_map, List.getElem?_zipIdx, Nat.zero_add]
  cases p.statements[i]? <;> rfl

theorem size_circuit (p : Program) : p.circuit.size = p.statements.length := by
  rw [size, Program.circuit, ofNodes, List.size_toArray, List.length_map, List.length_zipIdx]

/-- Call points are the places of statements. -/
theorem callPointAt_circuit (hi : i < p.circuit.size) : p.circuit.callPointAt i = i := by
  rw [size_circuit] at hi
  rw [callPointAt, node?_circuit, List.getElem?_eq_getElem hi]
  rfl

/-- Statements of a valid program that share an operand share a wire. -/
theorem exists_wire_of_shares (hp : p.validate = .ok ()) {s s' : Statement}
    (hs : p.statements[i]? = some s) (hs' : p.statements[j]? = some s') (h : s.Shares s') :
    ∃ w, w ∈ p.circuit.wires i ∧ w ∈ p.circuit.wires j := by
  have hnode : ∀ {k : Nat} {x : Statement}, p.statements[k]? = some x →
      p.circuit.wires k = Node.wires p.numQubits p.numClbits ⟨k, x.name, x.qubits, x.clbits⟩ := by
    intro k x hx
    refine wires_eq ?_
    rw [node?_circuit, hx]
    rfl
  have hvalid := lt_of_validate (Outcome.forM_eq_ok_iff.1 hp s (List.mem_of_getElem? hs))
  rw [hnode hs, hnode hs']
  rcases h with ⟨q, hq, hq'⟩ | ⟨b, hb, hb'⟩
  · have hlt := hvalid.1 q hq
    exact ⟨q, Node.mem_wires_of_mem_qubits hq hlt, Node.mem_wires_of_mem_qubits hq' hlt⟩
  · have hlt := hvalid.2 b hb
    exact ⟨p.numQubits + b, Node.mem_wires_of_mem_clbits hb hlt,
      Node.mem_wires_of_mem_clbits hb' hlt⟩

end Circuit

namespace Greedy

open QubitAllocation.Outcome Arrangement

/-! ## The loop without a bound -/

/-- Advancing from the run for as long as nodes are open comes to an end with the outcome. -/
inductive Finishes (t : Task) : Run → Except AllocError Run → Prop
  | done {r : Run} : t.circuit.size ≤ r.frontier.schedule.length → Finishes t r (.ok r)
  | refused {r : Run} {e : AllocError} : r.frontier.schedule.length < t.circuit.size →
      advance t r = .error e → Finishes t r (.error e)
  | round {r next : Run} {out : Except AllocError Run} :
      r.frontier.schedule.length < t.circuit.size → advance t r = .ok next →
      Finishes t next out → Finishes t r out

section Loop

variable {t : Task} {deps : Dependencies} {r : Run} {done : List Nat}

theorem Run.Inv.length_schedule (inv : r.Inv t deps done) :
    r.frontier.schedule.length = done.length := by
  rw [inv.frontier.schedule, List.length_map]

/-- **The loop ends**, and as many rounds as there are open nodes are enough. -/
theorem Run.Inv.finishes_advanceAll (ht : t.For deps) {fuel : Nat} (inv : r.Inv t deps done)
    (hfuel : t.circuit.size ≤ done.length + fuel) :
    Finishes t r (Greedy.advanceAll t fuel r) := by
  induction fuel generalizing r done with
  | zero =>
    refine .done ?_
    rw [inv.length_schedule]
    exact hfuel
  | succ fuel ih =>
    rw [Greedy.advanceAll, Handler.advanceAll]
    split_ifs with hdone
    · exact .done hdone
    · rw [Nat.not_le] at hdone
      cases hadvance : plain.advance t r with
      | error e => exact .refused hdone hadvance
      | ok next =>
        obtain ⟨more, hinv, hmore⟩ := (inv.advance ht (inv.length_schedule ▸ hdone)).1 next hadvance
        have hpos := List.length_pos_iff.2 hmore
        exact .round hdone hadvance (ih hinv (by rw [List.length_append]; omega))

/-- An advance is refused only if no route joins the qubits of a ready dependency. -/
theorem Run.Inv.error_of_advance (ht : t.For deps) (inv : r.Inv t deps done)
    (hopen : done.length < t.circuit.size) {e : AllocError} (h : Greedy.advance t r = .error e) :
    ∃ u v, e = .device (.unreachable u v) := by
  rcases inv.advance_cases ht hopen with
    ⟨r', more, hadvance, -, -⟩ | ⟨marked, hadvance, hinv, hready, hpairs⟩
  · rw [h] at hadvance
    cases hadvance
  · rw [hadvance] at h
    -- once all bids are in, the cheapest is committed, so one of the bids is refused
    rcases bind_eq_error_iff.1 h with hbids | ⟨bids, hbids, -⟩
    · obtain ⟨i, hi, hbid⟩ := error_of_mapM hbids
      obtain ⟨p, hp⟩ := hpairs i hi
      obtain ⟨-, -, -, -, hcontrol, htarget, -⟩ :=
        ht.of_pair? (hinv.frontier.leads_of_ready hi).lt hp
      rw [bid, bind_of_eq_ok (lookup_eq_ok_iff.2 hp)] at hbid
      rcases evaluate_cases t.costs hinv.state.layout hcontrol htarget with
        ⟨candidate, heval⟩ | ⟨u, v, e', -, -, hroute, heval⟩
      · rw [bind_of_eq_ok heval] at hbid
        cases hbid
      · rw [heval] at hbid
        cases hbid
        rw [Device.error_of_route hroute]
        exact ⟨u, v, rfl⟩
    · obtain ⟨r', -, hr', -⟩ := hinv.commitCheapest ht hready hbids
      rw [h] at hr'
      cases hr'

/-- **The loop is refused only where no route joins two qubits.** -/
theorem Finishes.unreachable (ht : t.For deps) {out : Except AllocError Run}
    (h : Finishes t r out) (inv : r.Inv t deps done) {e : AllocError} (hout : out = .error e) :
    ∃ u v, e = .device (.unreachable u v) := by
  induction h generalizing done with
  | done _ => cases hout
  | refused hopen hadvance =>
    cases hout
    exact inv.error_of_advance ht (inv.length_schedule ▸ hopen) hadvance
  | round hopen hadvance _ ih =>
    obtain ⟨more, hinv, -⟩ := (inv.advance ht (inv.length_schedule ▸ hopen)).1 _ hadvance
    exact ih hinv hout

end Loop

/-! ## Allocations -/

section Solve

variable {d : Device} {costs : CostModel} {placement : Placement} {c : Circuit}
  {deps : Dependencies}

/-- The set-up is refused for the size of the device or for a dependency. -/
theorem error_of_setUp {e : AllocError} (h : setUp d costs placement c deps = .error e) :
    (∃ q, e = .qubitOutOfRange q d.size) ∨ deps.validate d.size = .error e := by
  by_cases hsize : c.numQubits ≤ d.size
  · cases hvalid : deps.validate d.size with
    | error e' =>
      rw [setUp, if_neg (Nat.not_lt.2 hsize), hvalid] at h
      cases h
      exact Or.inr rfl
    | ok _ =>
      obtain ⟨t, start, hsetUp⟩ := exists_setUp costs placement hsize hvalid
      rw [h] at hsetUp
      cases hsetUp
  · rw [setUp, if_pos (Nat.not_le.1 hsize)] at h
    cases h
    exact Or.inl ⟨_, rfl⟩

/-- **The loop of an allocation ends**, and what it ends in is concluded. -/
theorem finishes_of_setUp (hcarries : deps.validate d.size = .ok () → c.Carries deps) {t : Task}
    {start : Run} (h : setUp d costs placement c deps = .ok (t, start)) :
    ∃ out, Finishes t start out ∧ solveCircuit d costs placement c deps = out >>= conclude := by
  obtain ⟨-, -, rfl, ht, done, hinv⟩ := inv_of_setUp hcarries h
  refine ⟨_, hinv.finishes_advanceAll ht (Nat.le_add_left _ _), ?_⟩
  rw [solveCircuit_eq_setUp, bind_of_eq_ok h]

/-- An allocation is never refused for want of a ready node. -/
theorem solveCircuit_ne_noReady (hcarries : deps.validate d.size = .ok () → c.Carries deps)
    (k : Nat) : solveCircuit d costs placement c deps ≠ .error (.noReadyStatement k) := by
  intro h
  cases hsetUp : setUp d costs placement c deps with
  | error e =>
    rw [solveCircuit_eq_setUp, hsetUp] at h
    cases h
    rcases error_of_setUp hsetUp with ⟨q, hq⟩ | hvalid
    · cases hq
    · obtain ⟨dep, -, hdep⟩ := error_of_forM hvalid
      rcases Dependency.error_of_validate hdep with he | ⟨n, he⟩ | ⟨q, he⟩ | ⟨q, he⟩ <;> cases he
  | ok start =>
    obtain ⟨t, start⟩ := start
    obtain ⟨-, -, -, ht, done, hinv⟩ := inv_of_setUp hcarries hsetUp
    obtain ⟨out, hout, heq⟩ := finishes_of_setUp hcarries hsetUp
    rw [heq] at h
    rcases bind_eq_error_iff.1 h with herror | ⟨final, -, hfinal⟩
    · obtain ⟨u, v, he⟩ := hout.unreachable ht hinv herror
      cases he
    · rcases bind_eq_error_iff.1 hfinal with hcost | ⟨cost, -, hcost⟩
      · unfold narrowCost at hcost
        split_ifs at hcost
        cases hcost
      · cases hcost

/-- The schedule of a solution has every node once and keeps the order of every wire, and the steps
of the solution stand at the dependencies' call points in the order of the schedule. -/
theorem schedule_of_solveCircuit (hcarries : deps.validate d.size = .ok () → c.Carries deps)
    {outcome : Greedy.Outcome} (h : solveCircuit d costs placement c deps = .ok outcome) :
    ∃ all, outcome.schedule = all.map c.callPointAt ∧ all.Perm (List.range c.size) ∧
      c.InOrder all ∧ outcome.solution.steps.map Step.callPoint =
        outcome.schedule.filter (· ∈ deps.map Dependency.callPoint) := by
  obtain ⟨t, final, all, -, -, rfl, ht, hall, hle, -, rfl⟩ := exists_run_of_solveCircuit hcarries h
  refine ⟨all, hall.frontier.schedule, hall.frontier.done_perm hle, hall.frontier.order, ?_⟩
  show final.steps.map Step.callPoint = final.frontier.schedule.filter _
  rw [hall.calls]
  apply List.filter_congr
  intro k _
  rw [Bool.eq_iff_iff, decide_eq_true_eq, ht.table.lookup_isSome_iff]

end Solve

/-! ## Programs -/

/-- **Greedy schedules of programs**: the loop always ends and is never stuck. A schedule has every
statement once, with statements that share a qubit or a classical bit in program order, and the
steps of the solution follow the schedule. -/
theorem solveCircuit_schedules {p : Program} (hp : p.validate = .ok ()) (d : Device)
    (costs : CostModel) (placement : Placement) :
    (∀ k, solveCircuit d costs placement p.circuit p.dependencies ≠ .error (.noReadyStatement k)) ∧
    (∀ t start, setUp d costs placement p.circuit p.dependencies = .ok (t, start) →
      ∃ out, Finishes t start out ∧
        solveCircuit d costs placement p.circuit p.dependencies = out >>= conclude) ∧
    ∀ outcome, solveCircuit d costs placement p.circuit p.dependencies = .ok outcome →
      outcome.schedule.Perm (List.range p.statements.length) ∧
      (∀ i j s s', i < j → p.statements[i]? = some s → p.statements[j]? = some s' → s.Shares s' →
        outcome.schedule.idxOf i < outcome.schedule.idxOf j) ∧
      outcome.solution.steps.map Step.callPoint =
        outcome.schedule.filter (· ∈ p.dependencies.map Dependency.callPoint) := by
  have hcarries : p.dependencies.validate d.size = .ok () → p.circuit.Carries p.dependencies :=
    Circuit.carries_program hp
  refine ⟨solveCircuit_ne_noReady hcarries, fun t start => finishes_of_setUp hcarries, ?_⟩
  intro outcome houtcome
  obtain ⟨all, hschedule, hperm, horder, hcalls⟩ := schedule_of_solveCircuit hcarries houtcome
  have hmem : ∀ {i : Nat} {s : Statement}, p.statements[i]? = some s → i ∈ all := by
    intro i s hs
    rw [hperm.mem_iff, List.mem_range, Circuit.size_circuit]
    exact (List.getElem?_eq_some_iff.1 hs).1
  -- a call point is the place of its statement, so the schedule lists the nodes themselves
  have hself : outcome.schedule = all := by
    rw [hschedule]
    refine (List.map_congr_left fun i hi => ?_).trans (List.map_id all)
    exact Circuit.callPointAt_circuit (List.mem_range.1 (hperm.mem_iff.1 hi))
  refine ⟨?_, ?_, hcalls⟩
  · rw [hself, ← Circuit.size_circuit]
    exact hperm
  · intro i j s s' hij hs hs' hshares
    obtain ⟨w, hwi, hwj⟩ := Circuit.exists_wire_of_shares hp hs hs' hshares
    rw [hself]
    exact horder.idxOf_lt (hmem hs) (hmem hs') hij hwi hwj

/-- On a path of four qubits the pair (0, 3) waits for the cheaper (1, 2) and for the measurement of
qubit 1, and the measurement of qubit 0 into the same bit comes last. A statement without operands
is scheduled first. -/
theorem solveCircuit_schedules_path :
    let d := Device.ofNodup 4 [(0, 1), (1, 2), (2, 3)] (by decide) (by decide)
    let p : Program := ⟨4, 1, [.cx 0 1, .cx 2 3, .cx 0 3, .cx 1 2, .measure 1 0, .measure 0 0,
      .barrier []]⟩
    p.validate = .ok () ∧
      (∃ t start out, setUp d .standard .identity p.circuit p.dependencies = .ok (t, start) ∧
        Finishes t start out) ∧
      ∃ outcome, solveCircuit d .standard .identity p.circuit p.dependencies = .ok outcome ∧
        outcome.schedule = [6, 0, 1, 3, 4, 2, 5] ∧
        outcome.schedule.Perm (List.range 7) ∧
        outcome.schedule.idxOf 4 < outcome.schedule.idxOf 5 ∧
        outcome.solution.steps.map Step.callPoint =
          outcome.schedule.filter (· ∈ p.dependencies.map Dependency.callPoint) := by
  intro d p
  have hp : p.validate = .ok () := by decide +kernel
  obtain ⟨-, hloop, hschedule⟩ := solveCircuit_schedules hp d .standard .identity
  have hsolve : solveCircuit d .standard .identity p.circuit p.dependencies =
      .ok ⟨⟨[0, 1, 2, 3], 14, [⟨0, [.cnot 0 1]⟩, ⟨1, [.cnot 2 3]⟩, ⟨3, [.cnot 1 2]⟩,
        ⟨2, [.swap 3 2, .swap 3 1, .cnot 0 3]⟩]⟩, [6, 0, 1, 3, 4, 2, 5]⟩ := by
    decide +kernel
  refine ⟨hp, ?_, ?_⟩
  · cases hsetUp : setUp d .standard .identity p.circuit p.dependencies with
    | error e =>
      rw [solveCircuit_eq_setUp, hsetUp] at hsolve
      cases hsolve
    | ok start =>
      obtain ⟨out, hout, -⟩ := hloop start.1 start.2 hsetUp
      exact ⟨start.1, start.2, out, rfl, hout⟩
  · obtain ⟨hperm, horder, hcalls⟩ := hschedule _ hsolve
    exact ⟨_, hsolve, rfl, hperm, horder 4 5 _ _ (by decide) rfl rfl (Or.inr ⟨0, by decide⟩), hcalls⟩

end Greedy

end QubitAllocation
