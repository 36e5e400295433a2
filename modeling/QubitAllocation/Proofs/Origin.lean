import QubitAllocation.Device.Catalog
import QubitAllocation.Proofs.Description

/-!
# One relation in all tables of a device

A device is made from an edge list, from a text, by the name of a built-in device, or as a built-in
device (`Origin`). Each of these gives a number of qubits and a list of edges (`Origin.Gives`), and
the device is the one that is built from them (`Origin.exists_build`). This holds of the built-in
devices, too, whose edges are not checked when they are made (`Builtin.build_eq`).

So of all devices, wherever they come from, the same can be said: the edge list has the edges given,
each once, and the tables of successors, predecessors and neighbours are this list seen from one
qubit (`tables_are_one_relation`).
-/

set_option autoImplicit false

namespace QubitAllocation.Device

open Text Outcome

/-! ## Built-in devices -/

/-- The built-in devices. -/
inductive Builtin where
  | ibmqx2
  | ibmqx4
  | linear (n : Nat)
  | ring (n : Nat)
  | star (n : Nat)
  deriving DecidableEq, Repr

namespace Builtin

/-- The device as it is made. -/
def device : Builtin → Device
  | ibmqx2 => Device.ibmqx2
  | ibmqx4 => Device.ibmqx4
  | linear n => Device.linear n
  | ring n => Device.ring n
  | star n => Device.star n

def size : Builtin → Nat
  | ibmqx2 => 5
  | ibmqx4 => 5
  | linear n => n
  | ring n => n
  | star n => n

def edges : Builtin → List (Nat × Nat)
  | ibmqx2 => [(0, 1), (1, 2), (0, 2), (3, 2), (4, 2), (3, 4)]
  | ibmqx4 => [(1, 0), (2, 0), (2, 1), (3, 2), (3, 4), (2, 4)]
  | linear n => chainEdges n
  | ring n => ringEdges n
  | star n => starEdges n

/-- The edges of a built-in device would pass the check, whatever its size. -/
theorem build_eq (b : Builtin) : build b.size b.edges [⟨"q", b.size⟩] = .ok b.device := by
  rw [build_eq_ok_iff]
  cases b with
  | ibmqx2 => exact ⟨by decide, rfl⟩
  | ibmqx4 => exact ⟨by decide, rfl⟩
  | linear n => exact ⟨chainEdges_valid n, rfl⟩
  | ring n => exact ⟨ringEdges_valid n, rfl⟩
  | star n => exact ⟨starEdges_valid n, rfl⟩

/-- The names of a built-in device in lower case. The members of a family are called by the family
and their number of qubits. -/
inductive Called : Builtin → List Char → Prop
  | ibmqx2 : Called .ibmqx2 "ibmqx2".toList
  | qx2 : Called .ibmqx2 "qx2".toList
  | ibmqx4 : Called .ibmqx4 "ibmqx4".toList
  | qx4 : Called .ibmqx4 "qx4".toList
  | linear {n : Nat} {digits : List Char} : readWord? digits = some n →
      Called (.linear n) ("linear".toList ++ digits)
  | ring {n : Nat} {digits : List Char} : readWord? digits = some n →
      Called (.ring n) ("ring".toList ++ digits)
  | star {n : Nat} {digits : List Char} : readWord? digits = some n →
      Called (.star n) ("star".toList ++ digits)

theorem exists_of_member? {name : List Char} {family : String} {make : Nat → Device} {d : Device}
    (h : member? name family make = some d) :
    ∃ n digits, name = family.toList ++ digits ∧ readWord? digits = some n ∧ make n = d := by
  rw [member?] at h
  split_ifs at h with hfamily
  obtain ⟨digits, rfl⟩ := List.isPrefixOf_iff_prefix.1 hfamily
  obtain ⟨n, hn, hd⟩ := Option.map_eq_some_iff.1 h
  rw [← String.length_toList, List.drop_left] at hn
  exact ⟨n, digits, rfl, hn, hd⟩

/-- A device that is found by a name is the built-in device of that name. -/
theorem exists_called_of_lookup? {name : List Char} {d : Device} (h : lookup? name = some d) :
    ∃ b, Called b name ∧ b.device = d := by
  rw [lookup?] at h
  split_ifs at h with hqx2 hqx4
  · cases h
    rcases hqx2 with rfl | rfl
    · exact ⟨.ibmqx2, .ibmqx2, rfl⟩
    · exact ⟨.ibmqx2, .qx2, rfl⟩
  · cases h
    rcases hqx4 with rfl | rfl
    · exact ⟨.ibmqx4, .ibmqx4, rfl⟩
    · exact ⟨.ibmqx4, .qx4, rfl⟩
  · -- the families are tried one after the other
    simp only [Option.orElse_eq_orElse, Option.orElse_eq_or, Option.or_eq_some_iff] at h
    rcases h with h | ⟨-, h | ⟨-, h⟩⟩
    · obtain ⟨n, digits, rfl, hn, rfl⟩ := exists_of_member? h
      exact ⟨.linear n, .linear hn, rfl⟩
    · obtain ⟨n, digits, rfl, hn, rfl⟩ := exists_of_member? h
      exact ⟨.ring n, .ring hn, rfl⟩
    · obtain ⟨n, digits, rfl, hn, rfl⟩ := exists_of_member? h
      exact ⟨.star n, .star hn, rfl⟩

end Builtin

/-! ## Origins -/

/-- What a device can be made from. -/
inductive Origin where
  | edges (size : Nat) (edges : List (Nat × Nat))
  | text (text : String)
  | name (name : String)
  | builtin (b : Builtin)

namespace Origin

/-- The device that is made. -/
def device : Origin → Except DeviceError Device
  | .edges size links => ofEdges size links
  | .text content => read content
  | .name word => named word
  | .builtin b => .ok b.device

/-- The number of qubits and the edges that are given, with their repetitions. A text gives them in
its header line and in the lines after those of the registers. -/
inductive Gives : Origin → Nat → List (Nat × Nat) → Prop
  | edges (size : Nat) (edges : List (Nat × Nat)) : Gives (.edges size edges) size edges
  | text {text : String} {header : Line} {registerLines edgeLines : List Line}
      {registers : List Register} {size : Nat} {edges : List (Nat × Nat)} :
      contentLines text.toList = header :: (registerLines ++ edgeLines) →
      readHeader header = .ok (registers.length, size) →
      List.Forall₂ (fun line r => readRegister line = .ok r) registerLines registers →
      List.Forall₂ (fun line e => readEdge registers line = .ok e) edgeLines edges →
      Gives (.text text) size edges
  | name {name : String} {b : Builtin} : b.Called (name.toList.map Char.toLower) →
      Gives (.name name) b.size b.edges
  | builtin (b : Builtin) : Gives (.builtin b) b.size b.edges

/-- **Every device is built** from the number of qubits and the edges that are given. -/
theorem exists_build {origin : Origin} {d : Device} (h : origin.device = .ok d) :
    ∃ size edges registers, origin.Gives size edges ∧ build size edges registers = .ok d := by
  cases origin with
  | edges size edges => exact ⟨size, edges, _, .edges size edges, h⟩
  | text text =>
    obtain ⟨header, registerLines, edgeLines, size, registers, edges, hlines, hheader, hregisters,
      hedges, -, hbuild⟩ := lines_of_read h
    exact ⟨size, edges, registers, .text hlines hheader hregisters hedges, hbuild⟩
  | name name =>
    simp only [device, named] at h
    split at h
    · next hlookup =>
      cases h
      obtain ⟨b, hcalled, rfl⟩ := Builtin.exists_called_of_lookup? hlookup
      exact ⟨b.size, b.edges, _, .name hcalled, b.build_eq⟩
    · cases h
  | builtin b =>
    cases h
    exact ⟨b.size, b.edges, _, .builtin b, b.build_eq⟩

end Origin

/-! ## Tables -/

/-- An edge runs from `u` to `v`, or only from `v` to `u`, or the two are not coupled. -/
theorem count_directions (d : Device) (u v : Nat) :
    [d.hasEdge u v, d.isReverseEdge u v, !d.isAdjacent u v].count true = 1 := by
  rw [isReverseEdge, isAdjacent]
  cases d.hasEdge u v with
  | true => simp
  | false => cases d.hasEdge v u <;> simp

/-- **All tables of a device are one relation.** Whatever a device is made from, its edges are the
ones given without later repetitions, and they join two distinct qubits of the device. Successors
and predecessors are the other ends of these edges, in the order of the edges; the test for an edge
agrees with both. The neighbours of a qubit are its successors and then its other predecessors, none
twice, and they are the qubits coupled with it; so being neighbours is mutual. And of any two qubits
exactly one is true: there is an edge, there is one in the other direction only, or they are not
coupled. -/
theorem tables_are_one_relation {origin : Origin} {d : Device} (h : origin.device = .ok d) :
    (∃ edges, origin.Gives d.size edges ∧ d.edges = edges.eraseDups) ∧
    d.edges.Nodup ∧ (∀ e ∈ d.edges, e.1 < d.size ∧ e.2 < d.size ∧ e.1 ≠ e.2) ∧
    ∀ u v : Nat,
      (d.hasEdge u v = true ↔ (u, v) ∈ d.edges) ∧
      ((u, v) ∈ d.edges ↔ v ∈ d.successors u) ∧ ((u, v) ∈ d.edges ↔ u ∈ d.predecessors v) ∧
      d.successors u = (d.edges.filter fun e => e.1 = u).map Prod.snd ∧
      d.predecessors u = (d.edges.filter fun e => e.2 = u).map Prod.fst ∧
      d.neighbours u = d.successors u ++ (d.predecessors u).filter (· ∉ d.successors u) ∧
      (d.neighbours u).Nodup ∧ (v ∈ d.neighbours u ↔ d.isAdjacent u v = true) ∧
      (v ∈ d.neighbours u ↔ u ∈ d.neighbours v) ∧
      [d.hasEdge u v, d.isReverseEdge u v, !d.isAdjacent u v].count true = 1 := by
  obtain ⟨size, edges, registers, hgives, hbuild⟩ := Origin.exists_build h
  obtain ⟨rfl, hedges⟩ := edges_of_build hbuild
  refine ⟨⟨edges, hgives, hedges⟩, d.edges_nodup, d.edges_valid, fun u v => ?_⟩
  refine ⟨d.hasEdge_iff, d.mem_successors_iff.symm, d.mem_predecessors_iff.symm,
    d.successors_eq u, d.predecessors_eq u, ?_, d.nodup_neighbours u, ?_,
    ⟨mem_neighbours_symm, mem_neighbours_symm⟩, d.count_directions u v⟩
  · rw [neighbours_eq]
    simp
  · rw [mem_neighbours_iff, isAdjacent_iff]

/-- A text with a comment, with edges in both directions between two qubits, and with an edge that
is written twice. The qubit between the others has one of them as successor and as predecessor. -/
theorem tables_are_one_relation_both_ways :
    let origin := Origin.text "1 3\nq 3\n0 q[1]\n2 1\n# back\nq[1] 0\n0 1\n"
    ∃ d, origin.device = .ok d ∧ origin.Gives 3 [(0, 1), (2, 1), (1, 0), (0, 1)] ∧
      d.size = 3 ∧ d.edges = [(0, 1), (2, 1), (1, 0)] ∧
      d.successors 1 = [0] ∧ d.predecessors 1 = [0, 2] ∧ d.neighbours 1 = [0, 2] ∧
      [d.hasEdge 1 2, d.isReverseEdge 1 2, !d.isAdjacent 1 2] = [false, true, false] := by
  intro origin
  have hread : origin.device = build 3 [(0, 1), (2, 1), (1, 0), (0, 1)] [⟨"q", 3⟩] := rfl
  obtain ⟨d, hbuild⟩ : ∃ d, build 3 [(0, 1), (2, 1), (1, 0), (0, 1)] [⟨"q", 3⟩] = .ok d :=
    ⟨_, build_eq_ok_iff.2 ⟨by decide, rfl⟩⟩
  have hgives : origin.Gives 3 [(0, 1), (2, 1), (1, 0), (0, 1)] :=
    @Origin.Gives.text _ _ [⟨2, "q 3".toList⟩] _ [⟨"q", 3⟩] 3 _ rfl rfl (.cons rfl .nil)
      (.cons rfl (.cons rfl (.cons rfl (.cons rfl .nil))))
  obtain ⟨hsize, hdistinct⟩ := edges_of_build hbuild
  have hedges : d.edges = [(0, 1), (2, 1), (1, 0)] := hdistinct.trans (by decide)
  obtain ⟨-, -, -, htables⟩ := tables_are_one_relation (hread.trans hbuild)
  obtain ⟨hedge, -, -, hsuccessors, hpredecessors, hneighbours, -⟩ := htables 1 2
  rw [hedges] at hsuccessors hpredecessors
  rw [hsuccessors, hpredecessors] at hneighbours
  refine ⟨d, hread.trans hbuild, hgives, hsize, hedges, hsuccessors, hpredecessors, hneighbours, ?_⟩
  have hnot : d.hasEdge 1 2 = false := by
    rw [← Bool.not_eq_true, hedge, hedges]
    decide
  have hback : d.hasEdge 2 1 = true := by
    rw [d.hasEdge_iff, hedges]
    decide
  simp [isReverseEdge, isAdjacent, hnot, hback]

end QubitAllocation.Device
