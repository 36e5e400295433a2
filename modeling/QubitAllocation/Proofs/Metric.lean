import QubitAllocation.Proofs.Route
import Mathlib.Combinatorics.SimpleGraph.Metric

/-!
# Hops are the metric of the coupling graph

`Device.graph` is the undirected graph of a device: its couplings with the directions forgotten. The
hop tables were filled by a search, and the routes were read off hop tables, but both speak about
this graph: `k` hops lead from one qubit to another exactly if a walk of length `k` does
(`Device.walk_iff`), so the least number of hops is the distance in the graph
(`Device.isDepth_iff`).

A route is found exactly between qubits of the device in one component (`Device.exists_route_iff`),
and it is a shortest one. The matrix of distances marks the pairs without a route by a number that
is no distance on a device of fewer than `2 ^ 32` qubits (`Device.dist_lt`), so the mark can be told
from a distance, and a device is connected exactly if no entry is marked
(`Device.routes_are_metric`).
-/

set_option autoImplicit false

namespace QubitAllocation.Device

open Search

variable {d : Device} {u v k : Nat}

/-! ## The coupling graph -/

/-- The couplings of a device with their directions forgotten, as a graph. A number that is no qubit
of the device is an isolated vertex. -/
def graph (d : Device) : SimpleGraph Nat where
  Adj := d.Coupled
  symm := ⟨fun _ _ h => h.symm⟩
  loopless := ⟨fun _ h => h.ne rfl⟩

/-- Hops are edges of the graph, so `k` of them in a row are a walk of length `k`. -/
theorem walk_iff : Walk d.neighbours u k v ↔ ∃ way : d.graph.Walk u v, way.length = k := by
  constructor
  · intro h
    induction h with
    | refl => exact ⟨.nil, rfl⟩
    | @step k x y _ hy ih =>
      obtain ⟨way, hway⟩ := ih
      have hadj : d.graph.Adj x y := d.mem_neighbours_iff.1 hy
      exact ⟨way.concat hadj, by simp [hway]⟩
  · rintro ⟨way, rfl⟩
    induction way with
    | nil => exact .refl
    | cons hadj way ih => exact walk_succ_iff_head.2 ⟨_, d.mem_neighbours_iff.2 hadj, ih⟩

/-- Linked qubits are in one component of the graph. -/
theorem linked_iff_reachable : d.Linked u v ↔ d.graph.Reachable u v := by
  simp only [Linked, walk_iff]
  constructor
  · rintro ⟨k, way, -⟩
    exact ⟨way⟩
  · rintro ⟨way⟩
    exact ⟨way.length, way, rfl⟩

/-- **The least number of hops is the distance in the graph.** -/
theorem isDepth_iff :
    IsDepth d.neighbours u k v ↔ d.graph.Reachable u v ∧ d.graph.dist u v = k := by
  simp only [IsDepth, walk_iff]
  constructor
  · rintro ⟨⟨way, hway⟩, hleast⟩
    refine ⟨⟨way⟩, Nat.le_antisymm ?_ ?_⟩
    · exact hway ▸ d.graph.dist_le way
    · obtain ⟨shortest, hshortest⟩ := way.reachable.exists_walk_length_eq_dist
      exact hleast _ ⟨shortest, hshortest⟩
  · rintro ⟨hreach, rfl⟩
    refine ⟨hreach.exists_walk_length_eq_dist, ?_⟩
    rintro j ⟨way, rfl⟩
    exact d.graph.dist_le way

/-! ## Routes -/

/-- There is no search from a number that is no qubit of the device. -/
theorem hopsAt_hops_of_le (h : d.size ≤ v) (u : Nat) : hopsAt (d.hops v) u = none := by
  have hstart : start d.size id v = none := if_neg (Nat.not_lt.2 h)
  have hempty : d.hops v = #[] := by
    rw [hops, depths?, run, hstart]
    rfl
  rw [hopsAt, hempty, Array.getElem?_empty]
  rfl

/-- **A route is found exactly between qubits of the device in one component.** -/
theorem exists_route_iff :
    (∃ r, d.route u v = .ok r) ↔ u < d.size ∧ v < d.size ∧ d.graph.Reachable u v := by
  constructor
  · rintro ⟨r, hr⟩
    obtain ⟨hu, hv⟩ := lt_of_route hr
    obtain ⟨k, hk, -⟩ := isRoute_of_route hr
    exact ⟨hu, hv, (isDepth_iff.1 hk).1⟩
  · rintro ⟨hu, hv, hreach⟩
    exact exists_route_of_linked hu hv (linked_iff_reachable.2 hreach)

/-- Otherwise the route is refused, and for no other cause. -/
theorem route_eq_error_iff : d.route u v = .error (.unreachable u v) ↔
    ¬ (u < d.size ∧ v < d.size ∧ d.graph.Reachable u v) := by
  rw [← exists_route_iff]
  cases hroute : d.route u v with
  | ok r => simp
  | error e => simp [error_of_route hroute]

/-- What is found is a shortest route. -/
theorem isRoute_dist {r : List Nat} (h : d.route u v = .ok r) :
    d.IsRoute u v (d.graph.dist u v) r := by
  obtain ⟨hu, hv⟩ := lt_of_route h
  obtain ⟨k, hk, hisRoute⟩ := isRoute_of_route h
  rw [(isDepth_iff.1 hk).2]
  exact hisRoute

/-- A shortest route passes no qubit twice, so it has fewer hops than the device has qubits. -/
theorem dist_lt (hu : u < d.size) : d.graph.dist u v < d.size := by
  by_cases hreach : d.graph.Reachable u v
  · have hlinked := linked_iff_reachable.2 hreach
    have hv : v < d.size := by
      obtain ⟨k, hk⟩ := hlinked
      exact hk.dom_of_dom (numbering d) hu
    obtain ⟨r, hr⟩ := exists_route_of_linked hu hv hlinked
    have hroute := isRoute_dist hr
    have hsub : r ⊆ List.range d.size := fun x hx => List.mem_range.2 (hroute.lt hu x hx)
    have hlen := (hroute.nodup.subperm hsub).length_le
    rw [hroute.length_eq, List.length_range] at hlen
    omega
  · rw [d.graph.dist_eq_zero_of_not_reachable hreach]
    omega

/-! ## The matrix of distances -/

/-- An entry of the matrix is the distance, or the mark of a pair without a route. -/
theorem getElem?_distanceMatrix (hu : u < d.size) (hv : v < d.size) :
    ∃ row, d.distanceMatrix[u]? = some row ∧
      row[v]? = some ((hopsAt (d.hops u) v).getD unreachableHops) := by
  have hsize := size_hops hu
  refine ⟨(d.hops u).toList.map fun cell => cell.getD unreachableHops, ?_, ?_⟩
  · simp [distanceMatrix, hopTables, hu]
  · have hcell : v < (d.hops u).size := by omega
    simp [hopsAt, Array.getElem?_eq_getElem hcell]

theorem hopsAt_hops_eq_none_iff (hu : u < d.size) (hv : v < d.size) :
    hopsAt (d.hops u) v = none ↔ ¬ d.graph.Reachable u v := by
  rw [← linked_iff_reachable, Option.eq_none_iff_forall_not_mem]
  constructor
  · rintro hnone ⟨k, hk⟩
    obtain ⟨j, -, hj⟩ := hk.exists_isDepth
    exact hnone j ((hopsAt_hops_iff hu hv).2 hj)
  · intro hapart k hk
    exact hapart ⟨k, ((hopsAt_hops_iff hu hv).1 hk).1⟩

/-- The matrix has the distances of the graph, and the mark where the graph has none. -/
theorem exists_entry (hu : u < d.size) (hv : v < d.size) :
    ∃ row, d.distanceMatrix[u]? = some row ∧
      (d.graph.Reachable u v → row[v]? = some (d.graph.dist u v)) ∧
      (¬ d.graph.Reachable u v → row[v]? = some unreachableHops) := by
  obtain ⟨row, hrow, hentry⟩ := getElem?_distanceMatrix hu hv
  refine ⟨row, hrow, fun hreach => ?_, fun hapart => ?_⟩
  · rw [hentry, (hopsAt_hops_iff hu hv).2 (isDepth_iff.2 ⟨hreach, rfl⟩)]
    rfl
  · rw [hentry, (hopsAt_hops_eq_none_iff hu hv).2 hapart]
    rfl

/-- Every number in the matrix is the entry of two qubits. -/
theorem exists_of_mem_distanceMatrix {row : List Nat} (hrow : row ∈ d.distanceMatrix) {x : Nat}
    (hx : x ∈ row) :
    ∃ u v, u < d.size ∧ v < d.size ∧ d.distanceMatrix[u]? = some row ∧ row[v]? = some x := by
  obtain ⟨u, hu⟩ := List.mem_iff_getElem?.1 hrow
  obtain ⟨v, hv⟩ := List.mem_iff_getElem?.1 hx
  have hult : u < d.size := by
    have hlt := (List.getElem?_eq_some_iff.1 hu).1
    simpa [distanceMatrix, hopTables] using hlt
  refine ⟨u, v, hult, ?_, hu, hv⟩
  -- the row is the hop table of `u`, which has a cell for each qubit
  obtain rfl : (d.hops u).toList.map (fun cell => cell.getD unreachableHops) = row := by
    simpa [distanceMatrix, hopTables, hult] using hu
  have hlt := (List.getElem?_eq_some_iff.1 hv).1
  rw [List.length_map, Array.length_toList, size_hops hult] at hlt
  exact hlt

/-- The hop tables have entries for qubits of the device only. -/
theorem lt_of_hopsBetween (h : hopsBetween d.hopTables u v = some k) : u < d.size ∧ v < d.size := by
  have hu : u < d.size := by
    by_contra hge
    simp [hopsBetween, hopsAt, hopTables, hge] at h
  refine ⟨hu, ?_⟩
  by_contra hge
  have hsize := size_hops hu
  have hrow : (d.hops u)[v]? = none := Array.getElem?_eq_none (by omega)
  simp [hopsBetween, hopsAt, hopTables, hu, hrow] at h

/-- The entries of the hop tables are the distances between qubits of one component. -/
theorem hopsBetween_eq_some_iff : hopsBetween d.hopTables u v = some k ↔
    (u < d.size ∧ v < d.size) ∧ d.graph.Reachable u v ∧ d.graph.dist u v = k := by
  constructor
  · intro h
    obtain ⟨hu, hv⟩ := lt_of_hopsBetween h
    exact ⟨⟨hu, hv⟩, isDepth_iff.1 ((hopsBetween_hopTables_iff hu hv).1 h)⟩
  · rintro ⟨⟨hu, hv⟩, hdist⟩
    exact (hopsBetween_hopTables_iff hu hv).2 (isDepth_iff.2 hdist)

/-- The hops of the tables, or the mark of a pair without a route, fit 32 bits. -/
theorem getD_hopsBetween_lt (hsize : d.size < 2 ^ 32) (u v : Nat) :
    (hopsBetween d.hopTables u v).getD unreachableHops < 2 ^ 32 := by
  cases hhops : hopsBetween d.hopTables u v with
  | none =>
    have hmark : unreachableHops < 2 ^ 32 := by decide
    exact hmark
  | some k =>
    obtain ⟨⟨hu, -⟩, -, rfl⟩ := hopsBetween_eq_some_iff.1 hhops
    have hlt := dist_lt (v := v) hu
    rw [Option.getD_some]
    omega

/-! ## Connected devices -/

/-- The test for connected devices is exact. -/
theorem isConnected_iff : d.isConnected = true ↔ d.Connected := by
  refine ⟨connected_of_isConnected, fun h => ?_⟩
  rw [isConnected, Bool.or_eq_true, decide_eq_true_eq, Array.all_eq_true]
  rcases Nat.lt_or_ge 1 d.size with hlarge | hsmall
  · refine Or.inr fun x hx => ?_
    have hpos : 0 < d.size := by omega
    have hxlt : x < d.size := by rwa [size_hops hpos] at hx
    obtain ⟨k, hk⟩ := h 0 x hpos hxlt
    obtain ⟨j, -, hj⟩ := hk.exists_isDepth
    have hat := (hopsAt_hops_iff hpos hxlt).2 hj
    rw [hopsAt, Array.getElem?_eq_getElem hx] at hat
    rw [Option.isSome_iff_exists]
    exact ⟨j, hat⟩
  · exact Or.inl hsmall

/-- **Routes and the matrix of distances speak about the metric of the coupling graph.** A route is
found exactly between qubits of the device in one component; it leads from the one to the other over
couplings, passes no qubit twice, and its number of hops is the distance in the graph. The matrix
has the same number, and its mark `2 ^ 32 - 1` exactly where no route is found. So the device is
connected exactly if the mark does not occur. -/
theorem routes_are_metric (hsize : d.size < 2 ^ 32) (u v : Nat) :
    ((∃ r, d.route u v = .ok r) ↔ u < d.size ∧ v < d.size ∧ d.graph.Reachable u v) ∧
    (∀ r, d.route u v = .ok r → r.head? = some u ∧ r.getLast? = some v ∧ r.Nodup ∧
      r.IsChain d.Coupled ∧ r.length - 1 = d.graph.dist u v) ∧
    (u < d.size → v < d.size → ∃ row x, d.distanceMatrix[u]? = some row ∧ row[v]? = some x ∧
      (∀ r, d.route u v = .ok r → x = r.length - 1) ∧
      (x = 2 ^ 32 - 1 ↔ d.route u v = .error (.unreachable u v))) ∧
    (d.isConnected = true ↔ ∀ x y, x < d.size → y < d.size → d.graph.Reachable x y) ∧
    (d.isConnected = true ↔ ∀ row ∈ d.distanceMatrix, 2 ^ 32 - 1 ∉ row) := by
  have hmark : unreachableHops = 2 ^ 32 - 1 := rfl
  have hconnected : d.isConnected = true ↔
      ∀ x y, x < d.size → y < d.size → d.graph.Reachable x y := by
    simp only [isConnected_iff, Connected, linked_iff_reachable]
  refine ⟨exists_route_iff, fun r hr => ?_, fun hu hv => ?_, hconnected, ?_⟩
  · obtain ⟨hlen, hhead, hlast, hlinked, hnodup⟩ := isRoute_dist hr
    exact ⟨hhead, hlast, hnodup, hlinked, by omega⟩
  · obtain ⟨row, hrow, hdist, hapart⟩ := exists_entry hu hv
    rw [route_eq_error_iff]
    by_cases hreach : d.graph.Reachable u v
    · refine ⟨row, _, hrow, hdist hreach, fun r hr => ?_, ?_⟩
      · rw [(isRoute_dist hr).length_eq]
        rfl
      · -- a distance is too small for the mark
        have hlt := dist_lt (v := v) hu
        simp only [hu, hv, hreach, and_self, not_true_eq_false, iff_false]
        omega
    · refine ⟨row, _, hrow, hapart hreach, fun r hr => ?_, ?_⟩
      · exact absurd (exists_route_iff.1 ⟨r, hr⟩).2.2 hreach
      · simp [hmark, hreach]
  · rw [hconnected]
    constructor
    · intro hall row hrow hmem
      obtain ⟨x, y, hx, hy, hat, hentry⟩ := exists_of_mem_distanceMatrix hrow hmem
      obtain ⟨row', hat', hdist, -⟩ := exists_entry hx hy
      obtain rfl : row = row' := Option.some.inj (hat.symm.trans hat')
      have hlt := dist_lt (v := y) hx
      rw [hdist (hall x y hx hy)] at hentry
      have := Option.some.inj hentry
      omega
    · intro hnone x y hx hy
      by_contra hapart
      obtain ⟨row, hat, -, hentry⟩ := exists_entry hx hy
      exact hnone row (List.mem_of_getElem? hat) (List.mem_of_getElem? (hmark ▸ hentry hapart))

/-- Five qubits in two components, with couplings in both directions. The route between the ends of
the larger one has two hops, none leads to the other component, and the device is not connected. -/
theorem routes_are_metric_split :
    let d := Device.ofNodup 5 [(0, 1), (2, 1), (4, 3)] (by decide) (by decide)
    d.size < 2 ^ 32 ∧ d.route 2 0 = .ok [2, 1, 0] ∧ d.graph.dist 2 0 = 2 ∧
      ¬ d.graph.Reachable 2 3 ∧ d.distanceMatrix[2]? = some [2, 1, 0, 2 ^ 32 - 1, 2 ^ 32 - 1] ∧
      d.route 2 3 = .error (.unreachable 2 3) ∧ d.isConnected = false := by
  intro d
  have hsize : d.size < 2 ^ 32 := by decide
  have hroute : d.route 2 0 = .ok [2, 1, 0] := by decide +kernel
  have hrow : d.distanceMatrix[2]? = some [2, 1, 0, 2 ^ 32 - 1, 2 ^ 32 - 1] := by decide +kernel
  have herror : d.route 2 3 = .error (.unreachable 2 3) := by decide +kernel
  obtain ⟨-, hfound, -⟩ := routes_are_metric hsize 2 0
  obtain ⟨hiff, -, -, -, hmarks⟩ := routes_are_metric hsize 2 3
  have hapart : ¬ d.graph.Reachable 2 3 := by
    intro hreach
    obtain ⟨r, hr⟩ := hiff.2 ⟨by decide, by decide, hreach⟩
    rw [herror] at hr
    cases hr
  refine ⟨hsize, hroute, ?_, hapart, hrow, herror, ?_⟩
  · obtain ⟨-, -, -, -, hdist⟩ := hfound _ hroute
    exact hdist.symm
  · rw [← Bool.not_eq_true, hmarks]
    intro hnone
    exact hnone _ (List.mem_of_getElem? hrow) (by decide)

end QubitAllocation.Device
