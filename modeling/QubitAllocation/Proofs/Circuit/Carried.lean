import QubitAllocation.Proofs.Circuit.Wires
import QubitAllocation.Proofs.Dependencies

/-!
# Circuits carry their dependencies

A circuit carries dependencies if its nodes have distinct call points, every dependency stands at
the call point of a node, and such a node has two wires at least. The circuit of a list of
dependencies carries the list (`carries_ofDependencies`), and the circuit of a valid program carries
the program's dependencies, provided that none of them is on one qubit twice (`carries_program`).
-/

set_option autoImplicit false

namespace QubitAllocation.Circuit

open Outcome

/-- Every dependency stands at a node of its own, on two wires at least. -/
structure Carries (c : Circuit) (deps : Dependencies) : Prop where
  nodup : (c.nodes.toList.map Node.callPoint).Nodup
  distinct : (deps.map Dependency.callPoint).Nodup
  carried : ∀ dep ∈ deps, dep.callPoint ∈ c.nodes.toList.map Node.callPoint
  arity : ∀ {i node dep}, c.node? i = some node → dep ∈ deps → dep.callPoint = node.callPoint →
    2 ≤ c.arity i

/-! ## Lists of dependencies -/

theorem node?_ofNodes (n m i : Nat) (nodes : List Node) : (ofNodes n m nodes).node? i = nodes[i]? :=
  List.getElem?_toArray

theorem carries_ofDependencies {deps : Dependencies} {n : Nat} (hvalid : deps.validate n = .ok ())
    (hdistinct : (deps.map Dependency.callPoint).Nodup) : (ofDependencies deps n).Carries deps := by
  have hcalls : (ofDependencies deps n).nodes.toList.map Node.callPoint =
      deps.map Dependency.callPoint := by
    rw [ofDependencies, ofNodes, List.map_map]
    rfl
  refine ⟨hcalls ▸ hdistinct, hdistinct, ?_, ?_⟩
  · intro dep hdep
    rw [hcalls]
    exact List.mem_map_of_mem hdep
  · intro i node dep hnode hdep hcall
    have hfound := hnode
    rw [ofDependencies, node?_ofNodes, List.getElem?_map, Option.map_eq_some_iff] at hfound
    obtain ⟨dep', hdep', rfl⟩ := hfound
    obtain rfl : dep = dep' :=
      List.inj_on_of_nodup_map hdistinct hdep (List.mem_of_getElem? hdep') hcall
    obtain ⟨p, hp, hcontrol, htarget, hne⟩ := Dependencies.validate_eq_ok_iff.1 hvalid dep hdep
    have hqubits : (dep.pairs.flatMap fun p => [p.control, p.target]) = [p.control, p.target] := by
      rw [hp]
      rfl
    refine two_le_arity hnode ?_ ?_ hne hcontrol htarget
    · rw [hqubits]
      exact List.mem_cons_self
    · rw [hqubits]
      exact List.mem_cons_of_mem _ List.mem_cons_self

/-! ## Programs -/

/-- The operands of a valid statement are declared. -/
theorem lt_of_validate {n m : Nat} {s : Statement} (h : s.validate n m = .ok ()) :
    (∀ q ∈ s.qubits, q < n) ∧ ∀ b ∈ s.clbits, b < m := by
  unfold Statement.validate at h
  split at h
  · cases h
  · next hqubits =>
    split at h
    · cases h
    · next hclbits =>
      constructor
      · intro q hq
        have hlt := List.find?_eq_none.1 hqubits q hq
        rwa [decide_eq_true_eq, Nat.not_le] at hlt
      · intro b hb
        have hlt := List.find?_eq_none.1 hclbits b hb
        rwa [decide_eq_true_eq, Nat.not_le] at hlt

theorem mem_dependencies_iff {p : Program} {dep : Dependency} :
    dep ∈ p.dependencies ↔ ∃ k s pair, p.statements[k]? = some s ∧ s.pair? = some pair ∧
      dep = Dependency.single k pair := by
  rw [Program.dependencies, List.mem_filterMap]
  constructor
  · rintro ⟨⟨s, k⟩, hmem, hdep⟩
    obtain ⟨pair, hpair, rfl⟩ := Option.map_eq_some_iff.1 hdep
    exact ⟨k, s, pair, List.mem_zipIdx_iff_getElem?.1 hmem, hpair, rfl⟩
  · rintro ⟨k, s, pair, hs, hpair, rfl⟩
    refine ⟨(s, k), List.mem_zipIdx_iff_getElem?.2 hs, ?_⟩
    rw [hpair]
    rfl

theorem qubits_of_pair {s : Statement} {pair : Pair} (h : s.pair? = some pair) :
    s.qubits = [pair.control, pair.target] := by
  unfold Statement.pair? at h
  split at h
  · next a b hqubits =>
    split_ifs at h
    cases h
    exact hqubits
  · cases h

/-- The dependencies of a program stand in the order of its statements. -/
theorem pairwise_callPoint_dependencies (p : Program) :
    p.dependencies.Pairwise fun dep dep' => dep.callPoint < dep'.callPoint := by
  have hplaces : p.statements.zipIdx.Pairwise fun x y => x.2 < y.2 := by
    rw [← List.pairwise_map, List.zipIdx_map_snd]
    exact List.pairwise_lt_range'
  refine hplaces.filterMap _ fun x y hlt dep hx dep' hy => ?_
  obtain ⟨_, -, rfl⟩ := Option.map_eq_some_iff.1 hx
  obtain ⟨_, -, rfl⟩ := Option.map_eq_some_iff.1 hy
  exact hlt

theorem nodup_callPoint_dependencies (p : Program) :
    (p.dependencies.map Dependency.callPoint).Nodup := by
  rw [List.Nodup, List.pairwise_map]
  exact (pairwise_callPoint_dependencies p).imp fun h => Nat.ne_of_lt h

theorem carries_program {p : Program} {n : Nat} (hvalid : p.validate = .ok ())
    (hdeps : p.dependencies.validate n = .ok ()) : p.circuit.Carries p.dependencies := by
  have hcalls : p.circuit.nodes.toList.map Node.callPoint =
      List.range' 0 p.statements.length := by
    rw [Program.circuit, ofNodes, List.map_map, ← List.zipIdx_map_snd]
    rfl
  refine ⟨hcalls ▸ List.nodup_range', nodup_callPoint_dependencies p, ?_, ?_⟩
  · intro dep hdep
    obtain ⟨k, s, pair, hs, -, rfl⟩ := mem_dependencies_iff.1 hdep
    rw [hcalls, List.mem_range'_1, Nat.zero_add]
    exact ⟨Nat.zero_le k, (List.getElem?_eq_some_iff.1 hs).1⟩
  · intro i node dep hnode hdep hcall
    obtain ⟨q, hq, -, -, hne⟩ := Dependencies.validate_eq_ok_iff.1 hdeps dep hdep
    obtain ⟨k, s, pair, hs, hpair, rfl⟩ := mem_dependencies_iff.1 hdep
    cases hq
    -- the node at the call point is the statement's
    have hfound := hnode
    rw [Program.circuit, node?_ofNodes, List.getElem?_map, Option.map_eq_some_iff] at hfound
    obtain ⟨⟨s', k'⟩, hs', rfl⟩ := hfound
    have hplace := List.mem_zipIdx_iff_getElem?.1 (List.mem_of_getElem? hs')
    obtain rfl : k = k' := hcall
    obtain rfl : s = s' := Option.some.inj (hs.symm.trans hplace)
    have hqubits := qubits_of_pair hpair
    have hlt := (lt_of_validate (forM_eq_ok_iff.1 hvalid s (List.mem_of_getElem? hs))).1
    refine two_le_arity hnode ?_ ?_ hne (hlt _ ?_) (hlt _ ?_)
    all_goals simp [hqubits]

end QubitAllocation.Circuit
