import QubitAllocation.Proofs.Verification

/-!
# Which accepted programs fit the device

The solution of an accepted program starts from an arrangement of the device's qubits
(`Allocator.isArrangement_of_run`), so a qubit of the program has a place in it exactly if the
device has that many qubits. The greedy strategy refuses a program that declares more qubits than
the device has. The other strategies look at the two-qubit statements only, and a statement of
another kind may name any qubit that the program declares. So under them an accepted program fits
the device exactly if its other statements do (`Allocator.allocateProgram_fits_iff`).
-/

set_option autoImplicit false

namespace QubitAllocation

open Outcome Arrangement

/-- Every qubit that a statement names is a qubit of the device and has a place in the mapping. -/
def Program.Fits (p : Program) (d : Device) (mapping : List Nat) : Prop :=
  ∀ s ∈ p.statements, ∀ q ∈ s.qubits, q < d.size ∧ ∃ u, mapping[q]? = some u

theorem Program.fits_iff {p : Program} {d : Device} {mapping : List Nat}
    (h : IsArrangement d.size mapping) :
    p.Fits d mapping ↔ ∀ s ∈ p.statements, ∀ q ∈ s.qubits, q < d.size := by
  constructor
  · intro hfits s hs q hq
    exact (hfits s hs q hq).1
  · intro hlt s hs q hq
    exact ⟨hlt s hs q hq, h.exists_entry (hlt s hs q hq)⟩

/-- An exact solution starts from an arrangement, whatever table is shared. -/
theorem Exact.isArrangement_of_solve {d : Device} {costs : CostModel} {shared : Option SwapTable}
    {deps : Dependencies} {s : Solution} (h : solve d costs shared deps = .ok s) :
    IsArrangement d.size s.initial := by
  obtain ⟨⟨⟩, -, h⟩ := bind_eq_ok_iff.1 h
  split_ifs at h
  · cases h
    exact isArrangement_identity d.size
  · obtain ⟨t, -, h⟩ := bind_eq_ok_iff.1 h
    obtain ⟨pairs, -, h⟩ := bind_eq_ok_iff.1 h
    cases hbest : bestTrail? d costs t pairs with
    | none =>
      rw [hbest] at h
      cases h
    | some trail =>
      rw [hbest] at h
      obtain ⟨cost, -, h⟩ := bind_eq_ok_iff.1 h
      obtain ⟨first, hfirst, h⟩ := bind_eq_ok_iff.1 h
      obtain ⟨steps, -, h⟩ := bind_eq_ok_iff.1 h
      cases h
      obtain ⟨c, hpriced, -⟩ := priced_of_bestTrail hbest
      have hmem := List.mem_reverse.1 (List.mem_of_head? (lookup_eq_ok_iff.1 hfirst))
      exact (mem_stops_iff.1 (hpriced.mem_stops first hmem)).1

namespace Allocator

variable {a : Allocator} {d : Device} {p : Program} {deps : Dependencies} {allocation : Allocation}

/-- Replaying an allocation does not change its solution. -/
theorem solution_of_finish {result : Allocation} (h : a.finish d deps allocation = .ok result) :
    result.solution = allocation.solution := by
  unfold finish at h
  split_ifs at h
  · obtain ⟨cost, -, h⟩ := bind_eq_ok_iff.1 h
    cases h
    rfl
  · cases h
    rfl

/-- Whatever the strategy, the solution starts from an arrangement of the device's qubits. -/
theorem isArrangement_of_run (hvalid : deps.validate d.size = .ok ())
    (hdistinct : (deps.map Dependency.callPoint).Nodup) (h : a.run d deps = .ok allocation) :
    IsArrangement d.size allocation.solution.initial := by
  unfold run at h
  cases hkind : a.config.allocator with
  | dynprog =>
    simp only [hkind] at h
    obtain ⟨solution, hsolve, h⟩ := bind_eq_ok_iff.1 h
    cases h
    exact Exact.isArrangement_of_solve hsolve
  | greedy =>
    simp only [hkind] at h
    obtain ⟨outcome, hsolve, h⟩ := bind_eq_ok_iff.1 h
    cases h
    have hcarries := Circuit.carries_ofDependencies hvalid hdistinct
    exact Greedy.isArrangement_of_solveCircuit (fun _ => hcarries) hsolve
  | pathGuided =>
    simp only [hkind] at h
    obtain ⟨initial, -, h⟩ := bind_eq_ok_iff.1 h
    obtain ⟨⟨solution, stats⟩, hbuild, h⟩ := bind_eq_ok_iff.1 h
    cases h
    exact (PathGuided.solves_of_build hbuild).1.initial
  | direct =>
    simp only [hkind] at h
    obtain ⟨initial, -, h⟩ := bind_eq_ok_iff.1 h
    obtain ⟨solution, hbuild, h⟩ := bind_eq_ok_iff.1 h
    cases h
    exact (Direct.solves_of_build hbuild).initial

/-- A greedy allocator refuses a program with more qubits than the device. -/
theorem of_allocateProgram_greedy (hgreedy : a.config.allocator = .greedy)
    (h : a.allocateProgram d p = .ok allocation) :
    p.validate = .ok () ∧ p.numQubits ≤ d.size ∧
      IsArrangement d.size allocation.solution.initial := by
  obtain ⟨⟨⟩, hp, h⟩ := bind_eq_ok_iff.1 h
  rw [if_pos hgreedy] at h
  obtain ⟨circuit, hcircuit, h⟩ := bind_eq_ok_iff.1 h
  obtain ⟨-, rfl⟩ := Circuit.circuit?_eq_some_iff.1 (lookup_eq_ok_iff.1 hcircuit)
  obtain ⟨outcome, hsolve, h⟩ := bind_eq_ok_iff.1 h
  rw [solution_of_finish h]
  refine ⟨hp, ?_, Greedy.isArrangement_of_solveCircuit (Circuit.carries_program hp) hsolve⟩
  by_contra hle
  have hlarge : d.size < p.circuit.numQubits := Nat.not_le.1 hle
  rw [Greedy.solveCircuit, if_pos hlarge] at hsolve
  cases hsolve

/-- The other allocators look at the dependencies of the program only. -/
theorem of_allocateProgram_not_greedy (hgreedy : a.config.allocator ≠ .greedy)
    (h : a.allocateProgram d p = .ok allocation) :
    p.dependencies.validate d.size = .ok () ∧
      IsArrangement d.size allocation.solution.initial := by
  obtain ⟨⟨⟩, hp, h⟩ := bind_eq_ok_iff.1 h
  rw [if_neg hgreedy] at h
  obtain ⟨⟨⟩, hvalid, h⟩ := bind_eq_ok_iff.1 h
  obtain ⟨found, hrun, h⟩ := bind_eq_ok_iff.1 h
  rw [solution_of_finish h]
  exact ⟨hvalid, isArrangement_of_run hvalid (Circuit.nodup_callPoint_dependencies p) hrun⟩

/-- **Which accepted programs fit the device**: all of them if the strategy is greedy, and else
those in which the statements that are no dependencies name qubits of the device only. -/
theorem allocateProgram_fits_iff (h : a.allocateProgram d p = .ok allocation) :
    IsArrangement d.size allocation.solution.initial ∧
    (p.Fits d allocation.solution.initial ↔ a.config.allocator = .greedy ∨
      ∀ s ∈ p.statements, s.pair? = none → ∀ q ∈ s.qubits, q < d.size) := by
  by_cases hgreedy : a.config.allocator = .greedy
  · obtain ⟨hp, hsize, hinitial⟩ := of_allocateProgram_greedy hgreedy h
    refine ⟨hinitial, fun _ => Or.inl hgreedy, fun _ => (Program.fits_iff hinitial).2 ?_⟩
    intro s hs q hq
    exact ((Circuit.lt_of_validate (forM_eq_ok_iff.1 hp s hs)).1 q hq).trans_le hsize
  · obtain ⟨hvalid, hinitial⟩ := of_allocateProgram_not_greedy hgreedy h
    refine ⟨hinitial, ?_⟩
    rw [Program.fits_iff hinitial, or_iff_right hgreedy]
    refine ⟨fun hlt s hs _ => hlt s hs, fun hother s hs q hq => ?_⟩
    cases hpair : s.pair? with
    | none => exact hother s hs hpair q hq
    | some pair =>
      -- a two-qubit statement is a dependency, and dependencies are checked
      obtain ⟨k, hk⟩ := List.mem_iff_getElem?.1 hs
      obtain ⟨pair', hpair', hcontrol, htarget, -⟩ := Dependencies.validate_eq_ok_iff.1 hvalid _
        (Circuit.mem_dependencies_iff.2 ⟨k, s, pair, hk, hpair, rfl⟩)
      cases hpair'
      rw [Circuit.qubits_of_pair hpair] at hq
      rcases List.mem_cons.1 hq with rfl | hq
      · exact hcontrol
      · rw [List.mem_singleton.1 hq]
        exact htarget

/-- A program that declares five qubits, for a device of three. The path-guided strategy accepts it,
and it fits, as its gate, its barrier and its measurement are on qubits that the device has. -/
theorem allocateProgram_fits_iff_path :
    let d := Device.ofNodup 3 [(0, 1), (1, 2)] (by decide) (by decide)
    let a : Allocator := ⟨⟨.pathGuided, .standard, .identity, true⟩, none⟩
    let p : Program := ⟨5, 1, [.gate "h" [2], .cx 0 2, .barrier [0, 1, 2], .measure 1 0]⟩
    ∃ allocation, a.allocateProgram d p = .ok allocation ∧
      p.Fits d allocation.solution.initial := by
  intro d a p
  have hallocate : a.allocateProgram d p = .ok ⟨.pathGuided,
      ⟨[0, 2, 1], 0, [⟨1, [.cnot 0 2]⟩]⟩, none, some ⟨0, 0, 0⟩, some 0⟩ := by
    decide +kernel
  have hother : ∀ s ∈ p.statements, s.pair? = none → ∀ q ∈ s.qubits, q < d.size := by
    decide +kernel
  exact ⟨_, hallocate, (allocateProgram_fits_iff hallocate).2.2 (Or.inr hother)⟩

/-- The direct strategy accepts a gate on qubit 4 for a device of two qubits; the greedy strategy
refuses the same program. -/
theorem allocateProgram_beyond_device :
    let d := Device.ofNodup 2 [(0, 1)] (by decide) (by decide)
    let config : Config := ⟨.direct, .standard, .weighted, true⟩
    let p : Program := ⟨5, 0, [.gate "h" [4], .cx 0 1]⟩
    (∃ allocation, allocateProgram ⟨config, none⟩ d p = .ok allocation ∧
      allocation.solution.initial = [0, 1] ∧ ¬ p.Fits d allocation.solution.initial) ∧
    allocateProgram ⟨{ config with allocator := .greedy }, none⟩ d p =
      .error (.qubitOutOfRange 4 2) := by
  intro d config p
  have hdirect : allocateProgram ⟨config, none⟩ d p = .ok ⟨.direct,
      ⟨[0, 1], 0, [⟨1, [.cnot 0 1]⟩]⟩, none, none, some 0⟩ := by
    decide +kernel
  refine ⟨⟨_, hdirect, rfl, fun hfits => ?_⟩, by decide +kernel⟩
  have hlt := (hfits (.gate "h" [4]) List.mem_cons_self 4 List.mem_cons_self).1
  exact absurd hlt (by decide)

end Allocator

end QubitAllocation
