import QubitAllocation.Allocator
import QubitAllocation.Proofs.Safety.Exact
import QubitAllocation.Proofs.Safety.Greedy
import QubitAllocation.Proofs.Safety.PathGuided
import QubitAllocation.Proofs.TokenBounds

/-!
# No allocation goes wrong inside

All strategies, the replay and the allocators that run them are proper on every input
(`Allocator.no_internal_refusal`): dependencies of any shape on any qubits, any list as a first
mapping, circuits and programs that need not be valid or have anything to do with the dependencies,
any solution, any prices, and a swap table that was built for any device. The one exception is a
program without a circuit, which has more wires than 32 bits can count, if its allocation is greedy
(`Allocator.allocateProgram_eq_of_circuit?`). What is looked up on the way is in range as well.

To the strategies this module adds what they share: the weighted placement (`Placement.Places`), and
searches and routes on the device (`Device.InRange`).
-/

set_option autoImplicit false

namespace QubitAllocation

open Arrangement Outcome

/-! ## First placements -/

namespace Placement

/-- The states of the weighted placement: what is placed, which logical qubits are not, and which
physical qubits are free. -/
inductive Places (d : Device) (pairs : List Pair) :
    List (Nat × Nat) → List Nat → List Nat → Prop
  | start : Places d pairs [] (List.range d.size) (List.range d.size)
  | placed {placed : List (Nat × Nat)} {unplaced free : List Nat} {q site : Nat} :
      Places d pairs placed unplaced free → nextQubit? pairs placed unplaced = some q →
      bestSite? d d.hopTables pairs placed q free = some site →
      Places d pairs ((q, site) :: placed) (unplaced.erase q) (free.erase site)

/-- **The weighted placement handles qubits of the device only.** -/
theorem Places.lt {d : Device} {pairs : List Pair} {placed : List (Nat × Nat)}
    {unplaced free : List Nat} (h : Places d pairs placed unplaced free) :
    (∀ entry ∈ placed, entry.1 < d.size ∧ entry.2 < d.size) ∧
      (∀ q ∈ unplaced, q < d.size) ∧ ∀ site ∈ free, site < d.size := by
  induction h with
  | start =>
    have hrange : ∀ q ∈ List.range d.size, q < d.size := fun q hq => List.mem_range.1 hq
    exact ⟨List.forall_mem_nil _, hrange, hrange⟩
  | placed _ hnext hbest ih =>
    obtain ⟨hplaced, hunplaced, hfree⟩ := ih
    refine ⟨List.forall_mem_cons.2 ⟨⟨?_, ?_⟩, hplaced⟩, ?_, ?_⟩
    · exact hunplaced _ (mem_of_nextQubit hnext)
    · exact hfree _ (mem_of_bestSite hbest)
    · exact fun q hq => hunplaced q (List.mem_of_mem_erase hq)
    · exact fun site hsite => hfree site (List.mem_of_mem_erase hsite)

end Placement

/-! ## Searches and routes -/

/-- Searches for hops have a cell for every qubit that they reach, and routes between qubits of the
device stay on it and have a hop if their ends differ. -/
structure Device.InRange (d : Device) : Prop where
  searched : ∀ u, u < d.size → Search.depths? d.size id d.neighbours u = some (d.hops u)
  routed : ∀ u v route, u < d.size → v < d.size → d.route u v = .ok route →
    (∀ x ∈ route, x < d.size) ∧ 1 ≤ route.length ∧ (u ≠ v → 2 ≤ route.length)

theorem Device.inRange (d : Device) : d.InRange where
  searched := fun u hu => (surveys_hops hu).1
  routed := by
    intro u v route hu hv hroute
    obtain ⟨k, hk, hisRoute⟩ := isRoute_of_route hroute
    have hlen := hisRoute.length_eq
    refine ⟨hisRoute.lt hu, by omega, fun hne => ?_⟩
    -- only a route of no hops has the same ends
    have hpos : k ≠ 0 := by
      rintro rfl
      exact hne (Search.isDepth_zero_iff.1 hk)
    omega

/-! ## Allocators -/

namespace Allocator

variable {a : Allocator} {d : Device}

theorem proper_finish (a : Allocator) (d : Device) (deps : Dependencies)
    (allocation : Allocation) : Proper (a.finish d deps allocation) := by
  unfold finish
  split_ifs
  · exact (proper_replay d deps allocation.solution a.config.costs).bind fun _ _ => proper_pure _
  · exact proper_ok _

theorem proper_run (htable : ∀ t, a.table = some t → ∃ other, SwapTable.build other = .ok t)
    (deps : Dependencies) : Proper (a.run d deps) := by
  have hfind := a.config.placement.proper_find d deps
  unfold run
  dsimp only
  cases a.config.allocator with
  | dynprog =>
    exact (Exact.proper_solve a.config.costs htable deps).bind fun _ _ => proper_pure _
  | greedy =>
    exact (Greedy.proper_solveCircuit d a.config.costs a.config.placement _ deps).bind
      fun _ _ => proper_pure _
  | pathGuided =>
    refine hfind.bind fun initial _ => ?_
    exact (PathGuided.proper_build d a.config.costs deps initial).bind fun _ _ => proper_pure _
  | direct =>
    refine hfind.bind fun initial _ => ?_
    exact (Direct.proper_build d a.config.costs deps initial).bind fun _ _ => proper_pure _

theorem proper_allocate (htable : ∀ t, a.table = some t → ∃ other, SwapTable.build other = .ok t)
    (deps : Dependencies) : Proper (a.allocate d deps) := by
  refine (deps.proper_validate d.size).bind fun _ _ => ?_
  exact (proper_run htable deps).bind fun allocation _ => proper_finish a d deps allocation

/-- A greedy allocator schedules the circuit of a valid program, if it has one. -/
theorem allocateProgram_eq_of_greedy {p : Program} (hgreedy : a.config.allocator = .greedy)
    (hp : p.validate = .ok ()) (hwires : p.numQubits + p.numClbits < 2 ^ 32) :
    a.allocateProgram d p =
      Greedy.solveCircuit d a.config.costs a.config.placement p.circuit p.dependencies >>=
        fun outcome =>
          a.finish d p.dependencies
            ⟨.greedy, outcome.solution, some outcome.schedule, none, none⟩ := by
  have hcircuit := Circuit.circuit?_eq_some_iff.2 ⟨hwires, rfl⟩
  rw [allocateProgram, bind_of_eq_ok hp]
  dsimp only
  rw [if_pos hgreedy, bind_of_eq_ok (lookup_eq_ok_iff.2 hcircuit)]

/-- The other allocators see the dependencies of a valid program only. -/
theorem allocateProgram_eq_of_not_greedy {p : Program} (hgreedy : a.config.allocator ≠ .greedy)
    (hp : p.validate = .ok ()) : a.allocateProgram d p = a.allocate d p.dependencies := by
  rw [allocateProgram, bind_of_eq_ok hp]
  dsimp only
  rw [if_neg hgreedy]

theorem proper_allocateProgram
    (htable : ∀ t, a.table = some t → ∃ other, SwapTable.build other = .ok t) {p : Program}
    (hwires : a.config.allocator = .greedy → p.numQubits + p.numClbits < 2 ^ 32) :
    Proper (a.allocateProgram d p) := by
  cases hp : p.validate with
  | error e =>
    rw [allocateProgram, hp]
    exact proper_error_iff.2 (p.proper_validate e hp)
  | ok _ =>
    by_cases hgreedy : a.config.allocator = .greedy
    · rw [allocateProgram_eq_of_greedy hgreedy hp (hwires hgreedy)]
      refine (Greedy.proper_solveCircuit d _ _ p.circuit p.dependencies).bind fun outcome _ => ?_
      exact proper_finish a d p.dependencies _
    · rw [allocateProgram_eq_of_not_greedy hgreedy hp]
      exact proper_allocate htable p.dependencies

/-- **No strategy and no check goes wrong inside.** On every input the answer is a value or a
refusal that is not internal, whichever device the shared swap table was built for; a program that
is allocated greedily has to have a circuit, and all the numbers of its wires are then 32-bit
numbers. And what is looked up on the way is in range: by searches and routes, by the weighted
placement, by the dynamic programme, in every run that a greedy allocation passes through, from
where each further round is proper as well, and in every state that a path-guided one passes
through, where no counter of pairs runs out. -/
theorem no_internal_refusal {shared : Option SwapTable}
    (hshared : ∀ t, shared = some t → ∃ other, SwapTable.build other = .ok t) (d : Device)
    (costs : CostModel) (deps : Dependencies) :
    (Proper (Exact.solve d costs shared deps) ∧
      (∀ placement, Proper (Greedy.solve d costs placement deps)) ∧
      (∀ placement c, Proper (Greedy.solveCircuit d costs placement c deps)) ∧
      (∀ initial, Proper (PathGuided.build d costs deps initial)) ∧
      (∀ initial, Proper (Direct.build d costs deps initial)) ∧
      (∀ s, Proper (replay d deps s costs)) ∧
      (∀ config, Proper (allocate ⟨config, shared⟩ d deps)) ∧
      ∀ config p, (config.allocator = .greedy → p.numQubits + p.numClbits < 2 ^ 32) →
        Proper (allocateProgram ⟨config, shared⟩ d p)) ∧
    (∀ p : Program, p.numQubits + p.numClbits < 2 ^ 32 → ∃ c, p.circuit? = some c ∧
      ∀ i w, w ∈ c.wires i → w < 2 ^ 32) ∧
    d.InRange ∧
    (∀ pairs placed unplaced free, Placement.Places d pairs placed unplaced free →
      (∀ entry ∈ placed, entry.1 < d.size ∧ entry.2 < d.size) ∧
        (∀ q ∈ unplaced, q < d.size) ∧ ∀ site ∈ free, site < d.size) ∧
    (deps.validate d.size = .ok () → ∀ pairs, deps.pairs = .ok pairs →
      (∀ t, Exact.chooseTable d shared = .ok t → Exact.InRange d costs t pairs) ∧
      ∀ initial rest s, IsArrangement d.size initial →
        PathGuided.Passes d costs ((deps.map Dependency.callPoint).zip pairs)
          (.start ⟨initial, inverse initial⟩) rest s →
        s.InRange d ∧ PathGuided.Within d rest) ∧
    (∀ placement c t start r, Greedy.setUp d costs placement c deps = .ok (t, start) →
      Greedy.Passes t start r → r.InRange t ∧
        (r.frontier.schedule.length < c.size → Proper (Greedy.advance t r) ∧
          ∀ next, Greedy.advance t r = .ok next → Greedy.Passes t start next)) ∧
    ∀ entries s, PathGuided.runCounted d costs (PathGuided.tally entries) entries s =
      PathGuided.run d costs entries s := by
  refine ⟨⟨Exact.proper_solve costs hshared deps, ?_, ?_, ?_, ?_, ?_, ?_, ?_⟩, ?_, d.inRange, ?_,
    ?_, ?_, PathGuided.runCounted_tally d costs⟩
  · exact fun placement => Greedy.proper_solve d costs placement deps
  · exact fun placement c => Greedy.proper_solveCircuit d costs placement c deps
  · exact PathGuided.proper_build d costs deps
  · exact Direct.proper_build d costs deps
  · exact fun s => proper_replay d deps s costs
  · exact fun config => proper_allocate (a := ⟨config, shared⟩) hshared deps
  · exact fun config p => proper_allocateProgram (a := ⟨config, shared⟩) hshared
  · intro p hwires
    have hcircuit := Circuit.circuit?_eq_some_iff.2 ⟨hwires, rfl⟩
    exact ⟨p.circuit, hcircuit, fun i w => Circuit.lt_of_circuit? hcircuit⟩
  · exact fun pairs placed unplaced free h => h.lt
  · intro hvalid pairs hpairs
    refine ⟨fun t htable => Exact.inRange_of_chooseTable costs hshared hvalid htable hpairs, ?_⟩
    intro initial rest s hinitial hpasses
    obtain ⟨hrange, hsub⟩ :=
      hpasses.inRange (PathGuided.State.tracks_start hinitial) (List.forall_mem_nil _)
    have hwithin := PathGuided.within_of_validate hvalid hpairs
    exact ⟨hrange, fun entry hentry => hwithin entry (hsub entry hentry)⟩
  · intro placement c t start r hsetUp hpasses
    obtain ⟨ht, hstart⟩ := Greedy.safe_of_setUp hsetUp
    obtain ⟨-, pairs, initial, -, -, rfl, -⟩ := Greedy.of_setUp hsetUp
    have hsafe := hpasses.safe ht hstart
    refine ⟨hsafe.inRange, fun hopen => ⟨Greedy.proper_advance ht hsafe hopen, fun next => ?_⟩⟩
    exact hpasses.advance ht hstart

/-- On three qubits of which two are coupled, with the table of another three: the dynamic programme
writes down swaps that the device does not allow, and its solution is refused by the replay. A
circuit whose nodes name an undeclared qubit and have call points of their own is scheduled with the
same dependencies, in a run that stays in range. -/
theorem no_internal_refusal_foreign_table :
    let d := Device.ofNodup 3 [(0, 1)] (by decide) (by decide)
    let other := Device.ofNodup 3 [(0, 2)] (by decide) (by decide)
    let deps : Dependencies := [⟨0, [⟨0, 1⟩]⟩, ⟨1, [⟨0, 2⟩]⟩]
    let config : Config := ⟨.dynprog, .standard, .weighted, true⟩
    let c : Circuit := .ofNodes 2 0 [⟨7, "swap", [0, 1, 9], []⟩, ⟨0, "cx", [1, 0], []⟩]
    ∃ table, SwapTable.build other = .ok table ∧
      Proper (Exact.solve d .standard (some table) deps) ∧
      Proper (allocate ⟨config, some table⟩ d deps) ∧
      allocate ⟨config, some table⟩ d deps =
        .error (.replay 1 (.swapNotAdjacent (.swap 1 2) 0 2)) ∧
      ∃ t start next, Greedy.setUp d .standard .identity c deps = .ok (t, start) ∧
        Greedy.advance t start = .ok next ∧ next.frontier.schedule = [7] ∧ next.InRange t := by
  intro d other deps config c
  obtain ⟨table, htable⟩ : ∃ table, SwapTable.build other = .ok table :=
    SwapTable.exists_build_iff.2 (by decide)
  have hshared : ∀ t, some table = some t → ∃ other, SwapTable.build other = .ok t := by
    rintro _ ⟨⟩
    exact ⟨other, htable⟩
  obtain ⟨⟨hexact, -, -, -, -, -, hallocate, -⟩, -, -, -, -, hgreedy, -⟩ :=
    no_internal_refusal hshared d .standard deps
  have hrefused : allocate ⟨config, some table⟩ d deps =
      .error (.replay 1 (.swapNotAdjacent (.swap 1 2) 0 2)) :=
    SwapTable.of_build htable (by decide +kernel)
  have hround : (Greedy.setUp d .standard .identity c deps >>= fun start =>
      Greedy.advance start.1 start.2 >>= fun next => pure next.frontier.schedule) = .ok [7] := by
    decide +kernel
  obtain ⟨⟨t, start⟩, hsetUp, hround⟩ := bind_eq_ok_iff.1 hround
  obtain ⟨next, hadvance, hschedule⟩ := bind_eq_ok_iff.1 hround
  have hopen : start.frontier.schedule.length < c.size := by
    obtain ⟨-, pairs, initial, -, -, -, rfl⟩ := Greedy.of_setUp hsetUp
    show (Frontier.start c).schedule.length < c.size
    decide +kernel
  have hnext := (hgreedy .identity c t start start hsetUp .refl).2 hopen
  have hrange := (hgreedy .identity c t start next hsetUp (hnext.2 next hadvance)).1
  exact ⟨table, htable, hexact, hallocate config, hrefused, t, start, next, hsetUp, hadvance,
    pure_eq_ok_iff.1 hschedule, hrange⟩

end Allocator

end QubitAllocation
