import QubitAllocation.Proofs.Metric
import QubitAllocation.Proofs.Placement
import QubitAllocation.Proofs.Total

/-!
# Placements do not depend on orders

The weighted placement reads a device through its hops, its degrees and the directions of its edges,
and it reads the pairs through counts and sums. None of these has an order in it. Devices with the
same edges, listed in any order, have the same coupling graph, hence the same hops
(`Device.hopsBetween_congr`), and neighbour lists that differ in their order only
(`Device.neighbours_perm`). Counts and sums over the pairs do not change with the order of the pairs
(`Placement.nextQubit?_perm`, `Placement.bestSite?_congr`). So each round places the same qubit on
the same place, and so do all rounds (`Placement.placeAll_congr`).

The order of the candidates does matter, since the first of the best ones is taken. But the
candidates are listed by their number, on every device.
-/

set_option autoImplicit false

namespace QubitAllocation

/-! ## Devices with the same edges -/

namespace Device

variable {d d' : Device}

/-- Devices built from the same edges, in whatever order and however often they are given, list the
same edges. -/
theorem edges_perm_of_build {n : Nat} {edges edges' : List (Nat × Nat)}
    {registers registers' : List Register} (h : build n edges registers = .ok d)
    (h' : build n edges' registers' = .ok d') (hsame : ∀ e, e ∈ edges ↔ e ∈ edges') :
    d.edges.Perm d'.edges := by
  rw [List.perm_ext_iff_of_nodup d.edges_nodup d'.edges_nodup]
  intro e
  rw [(edges_of_build h).2, (edges_of_build h').2, List.mem_eraseDups, List.mem_eraseDups]
  exact hsame e

theorem hasEdge_congr (h : d.edges.Perm d'.edges) (u v : Nat) :
    d.hasEdge u v = d'.hasEdge u v := by
  rw [Bool.eq_iff_iff, hasEdge_iff, hasEdge_iff]
  exact h.mem_iff

theorem isReverseEdge_congr (h : d.edges.Perm d'.edges) (u v : Nat) :
    d.isReverseEdge u v = d'.isReverseEdge u v := by
  rw [isReverseEdge, isReverseEdge, hasEdge_congr h, hasEdge_congr h]

theorem coupled_congr (h : d.edges.Perm d'.edges) (u v : Nat) :
    d.Coupled u v ↔ d'.Coupled u v := by
  rw [Coupled, Coupled, h.mem_iff, h.mem_iff]

/-- The orders of the neighbours may differ, but not the neighbours. -/
theorem neighbours_perm (h : d.edges.Perm d'.edges) (u : Nat) :
    (d.neighbours u).Perm (d'.neighbours u) := by
  rw [List.perm_ext_iff_of_nodup (d.nodup_neighbours u) (d'.nodup_neighbours u)]
  intro v
  rw [mem_neighbours_iff, mem_neighbours_iff, coupled_congr h]

theorem degree_congr (h : d.edges.Perm d'.edges) (u : Nat) : d.degree u = d'.degree u :=
  (neighbours_perm h u).length_eq

theorem graph_congr (h : d.edges.Perm d'.edges) : d.graph = d'.graph := by
  ext u v
  exact coupled_congr h u v

/-- **Hops do not depend on the order of the edges**, though the search meets the qubits of a level
in another order. -/
theorem hopsBetween_congr (hsize : d.size = d'.size) (h : d.edges.Perm d'.edges) (u v : Nat) :
    hopsBetween d.hopTables u v = hopsBetween d'.hopTables u v := by
  ext k
  rw [hopsBetween_eq_some_iff, hopsBetween_eq_some_iff, graph_congr h, hsize]

end Device

/-! ## The rounds of the placement -/

namespace Placement

open Arrangement Outcome

variable {d d' : Device} {pairs pairs' : List Pair}

/-- The next qubit is chosen by counts of pairs. -/
theorem nextQubit?_perm (hpairs : pairs.Perm pairs') (placed : List (Nat × Nat))
    (unplaced : List Nat) :
    nextQubit? pairs placed unplaced = nextQubit? pairs' placed unplaced := by
  have hconnections : connections pairs placed = connections pairs' placed := by
    funext q
    exact hpairs.countP_eq _
  have hinteractions : interactions pairs = interactions pairs' := by
    funext q
    exact hpairs.countP_eq _
  rw [nextQubit?, nextQubit?, hconnections, hinteractions]

theorem span_congr (hsize : d.size = d'.size) (hedges : d.edges.Perm d'.edges)
    (hpairs : pairs.Perm pairs') (placed : List (Nat × Nat)) (q site : Nat) :
    span d.hopTables placed q site pairs = span d'.hopTables placed q site pairs' := by
  rw [span, span, total_perm hpairs]
  simp only [Device.hopsBetween_congr hsize hedges]

theorem reversals_congr (hedges : d.edges.Perm d'.edges) (hpairs : pairs.Perm pairs')
    (placed : List (Nat × Nat)) (q site : Nat) :
    reversals d placed q site pairs = reversals d' placed q site pairs' := by
  rw [reversals, reversals, hpairs.countP_eq]
  simp only [Device.isReverseEdge_congr hedges]

/-- What a place offers to a qubit is the same on both devices, so the same place is taken. -/
theorem bestSite?_congr (hsize : d.size = d'.size) (hedges : d.edges.Perm d'.edges)
    (hpairs : pairs.Perm pairs') (placed : List (Nat × Nat)) (q : Nat) (free : List Nat) :
    bestSite? d d.hopTables pairs placed q free =
      bestSite? d' d'.hopTables pairs' placed q free := by
  have hown := hpairs.filter fun p => (partner? q p).isSome
  simp only [bestSite?, span_congr hsize hedges hown, reversals_congr hedges hown,
    Device.degree_congr hedges]

/-- **All rounds place the same qubits on the same places.** -/
theorem placeAll_congr (hsize : d.size = d'.size) (hedges : d.edges.Perm d'.edges)
    (hpairs : pairs.Perm pairs') (count : Nat) (placed : List (Nat × Nat))
    (unplaced free : List Nat) :
    placeAll d d.hopTables pairs count placed unplaced free =
      placeAll d' d'.hopTables pairs' count placed unplaced free := by
  induction count generalizing placed unplaced free with
  | zero => rfl
  | succ count ih =>
    simp only [placeAll, nextQubit?_perm hpairs, bestSite?_congr hsize hedges hpairs, ih]

/-- **The weighted placement depends on what is coupled and on what interacts, and on nothing
else.** Let two devices of one size be built from the same edges, in any order and with any
repetitions, and let valid dependencies have the same pairs in any order, at any call points. Then
the placement finds a mapping, and it is the same one. -/
theorem find_weighted_order_free {n : Nat} {edges edges' : List (Nat × Nat)}
    {registers registers' : List Register} {d d' : Device} {deps deps' : Dependencies}
    (hbuild : Device.build n edges registers = .ok d)
    (hbuild' : Device.build n edges' registers' = .ok d')
    (hedges : ∀ e, e ∈ edges ↔ e ∈ edges')
    (hvalid : deps.validate n = .ok ()) (hvalid' : deps'.validate n = .ok ())
    (hpairs : (deps.flatMap Dependency.pairs).Perm (deps'.flatMap Dependency.pairs)) :
    ∃ M, IsArrangement n M ∧ weighted.find d deps = .ok M ∧ weighted.find d' deps' = .ok M := by
  obtain rfl := (Device.edges_of_build hbuild).1
  have hsize := (Device.edges_of_build hbuild').1.symm
  have hperm := Device.edges_perm_of_build hbuild hbuild' hedges
  obtain ⟨M, hfind, hM⟩ := exists_find .weighted d hvalid
  refine ⟨M, hM, hfind, ?_⟩
  obtain ⟨ps, hps⟩ := Dependencies.exists_pairs (Dependencies.single_of_validate hvalid)
  obtain ⟨ps', hps'⟩ := Dependencies.exists_pairs (Dependencies.single_of_validate hvalid')
  rw [Dependencies.flatMap_pairs hps, Dependencies.flatMap_pairs hps'] at hpairs
  have hsame : weighted.find d deps = weighted.find d' deps' := by
    show weightedMapping d deps = weightedMapping d' deps'
    rw [weightedMapping_eq hvalid hps, weightedMapping_eq (hsize ▸ hvalid') hps',
      placeAll_congr hsize hperm hpairs, hsize]
  rw [← hsame, hfind]

/-- The second device is given with two edges repeated and all in another order, so that the middle
qubit has its neighbours in another order, and the dependencies are in another order, too, two of
them at one call point. -/
theorem find_weighted_order_free_star :
    let d := Device.ofNodup 4 [(0, 1), (2, 1), (1, 3)] (by decide) (by decide)
    let edges := [(1, 3), (2, 1), (1, 3), (0, 1), (2, 1)]
    let deps : Dependencies := [⟨0, [⟨0, 1⟩]⟩, ⟨1, [⟨2, 1⟩]⟩, ⟨2, [⟨2, 1⟩]⟩, ⟨3, [⟨3, 2⟩]⟩]
    let deps' : Dependencies := [⟨7, [⟨3, 2⟩]⟩, ⟨5, [⟨2, 1⟩]⟩, ⟨7, [⟨0, 1⟩]⟩, ⟨0, [⟨2, 1⟩]⟩]
    ∃ d', Device.build 4 d.edges [] = .ok d ∧
      Device.build 4 edges [⟨"a", 3⟩, ⟨"b", 1⟩] = .ok d' ∧
      d.neighbours 1 = [3, 0, 2] ∧ d'.neighbours 1 = [3, 2, 0] ∧
      (∀ e, e ∈ d.edges ↔ e ∈ edges) ∧
      deps.validate 4 = .ok () ∧ deps'.validate 4 = .ok () ∧
      (deps.flatMap Dependency.pairs).Perm (deps'.flatMap Dependency.pairs) ∧
      weighted.find d deps = .ok [2, 1, 0, 3] ∧ weighted.find d' deps' = .ok [2, 1, 0, 3] := by
  intro d edges deps deps'
  have hvalid : ∀ e ∈ edges, ValidEdge 4 e := by decide
  have hbuild : Device.build 4 d.edges [] = .ok d :=
    Device.build_eq_ofNodup d.edges_valid d.edges_nodup
  obtain ⟨d', hbuild'⟩ : ∃ d', Device.build 4 edges [⟨"a", 3⟩, ⟨"b", 1⟩] = .ok d' :=
    ⟨_, Device.build_eq_ok_iff.2 ⟨hvalid, rfl⟩⟩
  have hedges' : d'.edges = [(1, 3), (2, 1), (0, 1)] :=
    (Device.edges_of_build hbuild').2.trans (by decide)
  have hneighbours' : d'.neighbours 1 = [3, 2, 0] := by
    rw [Device.neighbours_eq, Device.successors_eq, Device.predecessors_eq, hedges']
    rfl
  have hsame : ∀ e, e ∈ d.edges ↔ e ∈ edges := by
    intro e
    simp [d, edges, Device.ofNodup]
    tauto
  have hpairs : (deps.flatMap Dependency.pairs).Perm (deps'.flatMap Dependency.pairs) := by decide
  have hfind : weighted.find d deps = .ok [2, 1, 0, 3] := by decide +kernel
  obtain ⟨M, -, hM, hM'⟩ := find_weighted_order_free hbuild hbuild' hsame rfl rfl hpairs
  obtain rfl : [2, 1, 0, 3] = M := Except.ok.inj (hfind.symm.trans hM)
  exact ⟨d', hbuild, hbuild', by decide +kernel, hneighbours', hsame, rfl, rfl, hpairs, hfind, hM'⟩

end Placement

end QubitAllocation
