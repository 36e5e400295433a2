import QubitAllocation.Proofs.Gate
import QubitAllocation.Proofs.Metric

/-!
# Which of the shortest routes is taken

The walks of the coupling graph from a qubit are its itineraries (`Device.follow_positions`,
`Device.exists_walk_of_follow`), and a route follows the soonest one between its ends: of the
shortest walks, the one whose places in the lists of neighbours are lexicographically smallest.

`Device.descentRoute` finds a route without a search from its start: it walks down the hop table of
the goal, each time to the first neighbour that is one hop closer. That is the soonest itinerary
too, so the two ways to find a route agree on all qubits (`Device.descentRoute_eq_route`).
-/

set_option autoImplicit false

namespace QubitAllocation.Device

open Search Itinerary

variable {d : Device} {u v w x i : Nat} {k m : List Nat}

/-! ## Itineraries and walks -/

/-- The itinerary of a list of qubits: the place of each in the neighbours of the one before. -/
def positions (d : Device) : List Nat → List Nat
  | u :: w :: r => (d.neighbours u).idxOf w :: d.positions (w :: r)
  | _ => []

theorem exists_walk_of_follow (h : follow d.neighbours u k = some v) :
    ∃ way : d.graph.Walk u v, way.support = stops d.neighbours u k ∧ way.length = k.length := by
  induction k generalizing u with
  | nil =>
    cases h
    exact ⟨.nil, rfl, rfl⟩
  | cons i k ih =>
    obtain ⟨w, hw, hv⟩ := follow_cons_eq_some_iff.1 h
    obtain ⟨way, hsupport, hlength⟩ := ih hv
    have hadj : d.graph.Adj u w := d.mem_neighbours_iff.1 (List.mem_of_getElem? hw)
    refine ⟨.cons hadj way, ?_, ?_⟩
    · rw [SimpleGraph.Walk.support_cons, hsupport, stops, hw, Option.elim_some]
    · rw [SimpleGraph.Walk.length_cons, hlength, List.length_cons]

theorem positions_support_cons (hadj : d.graph.Adj u w) (way : d.graph.Walk w v) :
    d.positions (SimpleGraph.Walk.cons hadj way).support =
      (d.neighbours u).idxOf w :: d.positions way.support := by
  rw [SimpleGraph.Walk.support_cons, ← way.cons_tail_support, positions]

theorem getElem?_idxOf_neighbours (h : d.graph.Adj u w) :
    (d.neighbours u)[(d.neighbours u).idxOf w]? = some w :=
  List.getElem?_idxOf (d.mem_neighbours_iff.2 h)

/-- The positions of a walk are an itinerary to its end. -/
theorem follow_positions (way : d.graph.Walk u v) :
    follow d.neighbours u (d.positions way.support) = some v := by
  induction way with
  | nil => rfl
  | cons hadj way ih =>
    rw [positions_support_cons, follow_cons_eq_some_iff]
    exact ⟨_, getElem?_idxOf_neighbours hadj, ih⟩

theorem length_positions (way : d.graph.Walk u v) :
    (d.positions way.support).length = way.length := by
  induction way with
  | nil => rfl
  | cons hadj way ih =>
    rw [positions_support_cons, List.length_cons, ih, SimpleGraph.Walk.length_cons]

/-- The qubits on the itinerary of a walk are those on the walk. -/
theorem stops_positions (way : d.graph.Walk u v) :
    stops d.neighbours u (d.positions way.support) = way.support := by
  induction way with
  | nil => rfl
  | cons hadj way ih =>
    rw [positions_support_cons, stops, getElem?_idxOf_neighbours hadj, Option.elim_some, ih,
      SimpleGraph.Walk.support_cons]

/-- No qubit is listed twice among the neighbours of another, so the itinerary of a list of qubits
can be read off it. -/
theorem positions_stops (h : follow d.neighbours u k = some v) :
    d.positions (stops d.neighbours u k) = k := by
  induction k generalizing u with
  | nil => rfl
  | cons i k ih =>
    obtain ⟨w, hw, hv⟩ := follow_cons_eq_some_iff.1 h
    obtain ⟨hi, hget⟩ := List.getElem?_eq_some_iff.1 hw
    have hplace : (d.neighbours u).idxOf w = i := by
      rw [← hget]
      exact (d.nodup_neighbours u).idxOf_getElem i hi
    have hfirst : ∃ r, stops d.neighbours w k = w :: r := by
      cases k <;> exact ⟨_, rfl⟩
    obtain ⟨r, hr⟩ := hfirst
    rw [stops, hw, Option.elim_some, hr, positions, hplace, ← hr, ih hv]

/-! ## The soonest itinerary -/

theorem length_of_soonest (h : Soonest d.neighbours u v k) : k.length = d.graph.dist u v :=
  (isDepth_iff.1 h.isDepth).2.symm

/-- Walk `k` hops from `u`, each to the first neighbour whose distance in the table is one less. -/
def descend (d : Device) (table : Array (Option Nat)) : Nat → Nat → List Nat
  | 0, u => [u]
  | k + 1, u =>
    match (d.neighbours u).find? fun w => hopsAt table w == some k with
    | some w => u :: descend d table k w
    | none => [u]

/-- A route from `u` to `v` by a walk down the hop table of `v`. -/
def descentRoute (d : Device) (u v : Nat) : Except DeviceError (List Nat) :=
  match hopsAt (d.hops v) u with
  | some k => .ok (d.descend (d.hops v) k u)
  | none => .error (.unreachable u v)

/-- A qubit that is some hops from `v` has a neighbour that is one hop closer. -/
theorem exists_closer {k : Nat} (hu : u < d.size) (hv : v < d.size)
    (h : hopsAt (d.hops v) u = some (k + 1)) :
    ∃ w, (d.neighbours u).find? (fun w => hopsAt (d.hops v) w == some k) = some w ∧
      d.Coupled u w ∧ hopsAt (d.hops v) w = some k := by
  obtain ⟨x, hx, hxu⟩ := ((hopsAt_hops_iff hv hu).1 h).exists_pred
  have hcoupled := d.mem_neighbours_iff.1 hxu
  have hclose : hopsAt (d.hops v) x = some k := (hopsAt_hops_iff hv hcoupled.lt.1).2 hx
  have hsome : ((d.neighbours u).find? fun w => hopsAt (d.hops v) w == some k).isSome := by
    rw [List.find?_isSome]
    exact ⟨x, mem_neighbours_symm hxu, beq_iff_eq.2 hclose⟩
  obtain ⟨w, hw⟩ := Option.isSome_iff_exists.1 hsome
  have hfound := List.find?_some hw
  rw [beq_iff_eq] at hfound
  exact ⟨w, hw, d.mem_neighbours_iff.1 (List.mem_of_find?_eq_some hw), hfound⟩

/-- A neighbour from which `k` hops are left, where `k + 1` hops are needed, is one hop closer. -/
theorem hopsAt_of_walk (hu : u < d.size) (hv : v < d.size) {n : Nat}
    (h : hopsAt (d.hops v) u = some (n + 1)) (huw : d.Coupled u w)
    (hw : Walk d.neighbours w n v) : hopsAt (d.hops v) w = some n := by
  have hdepth := isDepth_symm ((hopsAt_hops_iff hv hu).1 h)
  refine (hopsAt_hops_iff hv huw.lt.2).2 (isDepth_symm ⟨hw, fun j hj => ?_⟩)
  have := hdepth.2 (j + 1) (walk_succ_iff_head.2 ⟨w, d.mem_neighbours_iff.2 huw, hj⟩)
  omega

/-- The walk down a hop table follows the soonest itinerary. -/
theorem exists_soonest_descend (hu : u < d.size) (hv : v < d.size) {n : Nat}
    (h : hopsAt (d.hops v) u = some n) :
    ∃ k, Soonest d.neighbours u v k ∧ stops d.neighbours u k = d.descend (d.hops v) n u := by
  have hdepth := isDepth_symm ((hopsAt_hops_iff hv hu).1 h)
  -- an itinerary that is shorter than the distance leads elsewhere, so length ties are all there is
  suffices hlex : ∃ k, k.length = n ∧ follow d.neighbours u k = some v ∧
      stops d.neighbours u k = d.descend (d.hops v) n u ∧
      ∀ m, m.length = n → follow d.neighbours u m = some v → ¬ List.Lex (· < ·) m k by
    obtain ⟨k, hlen, hleads, hstops, hleast⟩ := hlex
    refine ⟨k, ⟨hleads, fun m hm hlt => ?_⟩, hstops⟩
    have hle := hdepth.2 _ (walk_of_follow hm)
    rcases sooner_iff.1 hlt with hshort | ⟨hsame, hsmall⟩
    · omega
    · exact hleast m (hsame.trans hlen) hm hsmall
  clear hdepth
  induction n generalizing u with
  | zero =>
    obtain rfl : v = u := isDepth_zero_iff.1 ((hopsAt_hops_iff hv hu).1 h)
    refine ⟨[], rfl, rfl, rfl, fun m hm _ => ?_⟩
    rw [List.length_eq_zero_iff.1 hm]
    exact List.not_lex_nil
  | succ n ih =>
    obtain ⟨w, hfind, huw, hw⟩ := exists_closer hu hv h
    obtain ⟨k, hlen, hleads, hstops, hleast⟩ := ih huw.lt.2 hw
    obtain ⟨-, i, hi, hget, hbefore⟩ := List.find?_eq_some_iff_getElem.1 hfind
    have hplace : (d.neighbours u)[i]? = some w := List.getElem?_eq_some_iff.2 ⟨hi, hget⟩
    refine ⟨i :: k, by rw [List.length_cons, hlen],
      follow_cons_eq_some_iff.2 ⟨w, hplace, hleads⟩, ?_, fun m hm hmv hlt => ?_⟩
    · rw [stops, hplace, Option.elim_some, hstops, descend, hfind]
    · cases hlt with
      | nil => cases hm
      | @cons _ m _ hlt =>
        obtain ⟨x, hx, hxv⟩ := follow_cons_eq_some_iff.1 hmv
        cases hplace.symm.trans hx
        exact hleast m (Nat.succ.inj hm) hxv hlt
      | @rel j m _ _ hji =>
        -- an earlier neighbour is no closer to `v`, so `n` hops do not lead from it to `v`
        obtain ⟨x, hx, hxv⟩ := follow_cons_eq_some_iff.1 hmv
        obtain ⟨hj, hgetj⟩ := List.getElem?_eq_some_iff.1 hx
        have hux : d.Coupled u x := d.mem_neighbours_iff.1 (List.mem_of_getElem? hx)
        have hwalk := walk_of_follow hxv
        rw [Nat.succ.inj hm] at hwalk
        have hclose := hopsAt_of_walk hu hv h hux hwalk
        have hskip := hbefore j hji
        rw [hgetj, hclose] at hskip
        simp at hskip

/-- **The walk down a hop table is the route that the search finds.** -/
theorem descentRoute_eq_route (d : Device) (u v : Nat) : d.descentRoute u v = d.route u v := by
  unfold descentRoute
  by_cases hout : d.size ≤ u ∨ d.size ≤ v
  · have hnone : hopsAt (d.hops v) u = none := by
      rcases Nat.lt_or_ge v d.size with hv | hv
      · have hsize := size_hops hv
        rw [hopsAt, Array.getElem?_eq_none (by omega)]
        rfl
      · exact hopsAt_hops_of_le hv u
    rw [hnone, route_of_le hout]
  · have hu : u < d.size := by omega
    have hv : v < d.size := by omega
    rcases route_cases hu hv with ⟨k, hk, hroute⟩ | ⟨hroute, hnone⟩
    · have hhops := (hopsAt_hops_iff hv hu).2 (isDepth_symm hk.isDepth)
      obtain ⟨m, hm, hstops⟩ := exists_soonest_descend hu hv hhops
      obtain rfl := hk.unique hm
      rw [hhops, hroute]
      exact congrArg Except.ok hstops.symm
    · have hhops : hopsAt (d.hops v) u = none := by
        refine (hopsAt_hops_eq_none_iff hv hu).2 fun hreach => ?_
        obtain ⟨way⟩ := hreach.symm
        exact hnone _ (follow_positions way)
      rw [hhops, hroute]

/-! ## Ties -/

theorem hopsAt_eq_one_iff {w : Nat} (hv : v < d.size) (hw : w < d.size) :
    hopsAt (d.hops v) w = some 1 ↔ d.isAdjacent w v = true := by
  rw [hopsAt_hops_iff hv hw, isDepth_iff, SimpleGraph.dist_eq_one_iff_adj, d.isAdjacent_iff]
  exact ⟨fun h => h.2.symm, fun h => ⟨SimpleGraph.Adj.reachable h.symm, h.symm⟩⟩

/-- The route between qubits two hops apart passes the first neighbour that is coupled with the
goal. -/
theorem exists_route_over_first (hu : u < d.size) (hv : v < d.size) (hreach : d.graph.Reachable u v)
    (htwo : d.graph.dist u v = 2) :
    ∃ bridge, (d.neighbours u).find? (fun w => d.isAdjacent w v) = some bridge ∧
      d.route u v = .ok [u, bridge, v] := by
  have hhops : hopsAt (d.hops v) u = some 2 :=
    (hopsAt_hops_iff hv hu).2 (isDepth_symm (isDepth_iff.2 ⟨hreach, htwo⟩))
  obtain ⟨bridge, hfind, hcoupled, hone⟩ := exists_closer hu hv hhops
  obtain ⟨w, hlast, hw, hzero⟩ := exists_closer hcoupled.lt.2 hv hone
  obtain rfl : v = w := Search.isDepth_zero_iff.1 ((hopsAt_hops_iff hv hw.lt.2).1 hzero)
  refine ⟨bridge, ?_, ?_⟩
  · -- among the neighbours, one hop from `v` and coupled with `v` are the same test
    rw [← hfind]
    refine List.find?_congr fun w hw => ?_
    have hlt := (d.mem_neighbours_iff.1 hw).lt.2
    rw [Bool.eq_iff_iff, beq_iff_eq, hopsAt_eq_one_iff hv hlt]
  · rw [← descentRoute_eq_route]
    simp only [descentRoute, hhops, descend, hfind, hlast]

/-- A pair two hops apart gets a gate over the first neighbour that is coupled with both. -/
theorem exists_between_over_first (hu : u < d.size) (hv : v < d.size)
    (hreach : d.graph.Reachable u v) (htwo : d.graph.dist u v = 2) (p : Pair) :
    ∃ bridge, (d.neighbours u).find? (fun w => d.isAdjacent w v) = some bridge ∧
      Gate.between d p u v = .ok (.longCnot p.control p.target bridge) := by
  obtain ⟨bridge, hfind, hroute⟩ := exists_route_over_first hu hv hreach htwo
  have hapart : ¬ d.Coupled u v := by
    intro hcoupled
    have hone : d.graph.dist u v = 1 := SimpleGraph.dist_eq_one_iff_adj.2 hcoupled
    omega
  have huv : ¬ d.hasEdge u v = true := fun h => hapart (Or.inl (d.hasEdge_iff.1 h))
  have hvu : ¬ d.hasEdge v u = true := fun h => hapart (Or.inr (d.hasEdge_iff.1 h))
  refine ⟨bridge, hfind, ?_⟩
  rw [Gate.between, if_neg huv, if_neg hvu,
    Outcome.bind_of_eq_ok (Outcome.ofDevice_eq_ok_iff.2 hroute)]

/-- **Between shortest routes the order of the neighbours decides.** The route, by either search, is
the shortest walk whose places in the lists of neighbours are lexicographically smallest, and a pair
two hops apart is bridged by the first neighbour that will do. -/
theorem route_breaks_ties_in_order (hu : u < d.size) (hreach : d.graph.Reachable u v) :
    ∃ way : d.graph.Walk u v,
      d.route u v = .ok way.support ∧ d.descentRoute u v = .ok way.support ∧
      way.length = d.graph.dist u v ∧
      (∀ other : d.graph.Walk u v, other.length = d.graph.dist u v → other ≠ way →
        List.Lex (· < ·) (d.positions way.support) (d.positions other.support)) ∧
      ∀ (mapping : List Nat) (p : Pair), mapping[p.control]? = some u →
        mapping[p.target]? = some v → d.graph.dist u v = 2 →
        ∃ bridge, (d.neighbours u).find? (fun w => d.isAdjacent w v) = some bridge ∧
          Gate.under d mapping p = .ok (.longCnot p.control p.target bridge) := by
  have hv : v < d.size := by
    obtain ⟨walk⟩ := hreach
    exact dom_of_follow d.numbering hu (follow_positions walk)
  obtain ⟨r, hr⟩ := exists_route_iff.2 ⟨hu, hv, hreach⟩
  obtain ⟨k, hk, rfl⟩ := exists_soonest_of_route hr
  obtain ⟨way, hsupport, hlength⟩ := exists_walk_of_follow hk.leads
  have hdist : way.length = d.graph.dist u v := hlength.trans (length_of_soonest hk)
  have hpositions : d.positions way.support = k := by rw [hsupport, positions_stops hk.leads]
  refine ⟨way, by rw [hr, hsupport], by rw [descentRoute_eq_route, hr, hsupport], hdist, ?_, ?_⟩
  · intro other hother hne
    rw [hpositions]
    refine hk.lex (follow_positions other) ?_ fun heq => hne ?_
    · rw [length_positions, hother, length_of_soonest hk]
    · apply SimpleGraph.Walk.ext_support
      rw [← stops_positions other, heq, hsupport]
  · intro mapping p hcontrol htarget htwo
    obtain ⟨bridge, hfind, hbetween⟩ := exists_between_over_first hu hv hreach htwo p
    refine ⟨bridge, hfind, ?_⟩
    rw [Gate.under, hcontrol, htarget]
    exact hbetween

/-- On a square, qubit 2 is listed before qubit 1 among the neighbours of qubit 0, and is the bridge
to qubit 3 although the way over qubit 1 is as short. -/
theorem route_breaks_ties_in_order_square :
    let d := Device.ofNodup 4 [(0, 2), (0, 1), (1, 3), (2, 3)] (by decide) (by decide)
    d.graph.Reachable 0 3 ∧ d.graph.dist 0 3 = 2 ∧ d.route 0 3 = .ok [0, 2, 3] ∧
      d.descentRoute 0 3 = .ok [0, 2, 3] ∧
      (∃ other : d.graph.Walk 0 3, other.support = [0, 1, 3] ∧
        List.Lex (· < ·) (d.positions [0, 2, 3]) (d.positions other.support)) ∧
      Gate.under d [0, 1, 2, 3] ⟨0, 3⟩ = .ok (.longCnot 0 3 2) := by
  intro d
  have hfirst : d.graph.Adj 0 1 := show d.Coupled 0 1 by decide
  have hsecond : d.graph.Adj 1 3 := show d.Coupled 1 3 by decide
  let other : d.graph.Walk 0 3 := .cons hfirst (.cons hsecond .nil)
  have hroute : d.route 0 3 = .ok [0, 2, 3] := by decide +kernel
  obtain ⟨way, hway, hdescent, hlength, hleast, hgate⟩ :=
    route_breaks_ties_in_order (d := d) (u := 0) (v := 3) (by decide) other.reachable
  have hsupport : way.support = [0, 2, 3] := Except.ok.inj (hway.symm.trans hroute)
  have htwo : d.graph.dist 0 3 = 2 := by
    have hlen := way.length_support
    rw [hsupport, hlength] at hlen
    exact (Nat.succ.inj hlen).symm
  refine ⟨other.reachable, htwo, hroute, hsupport ▸ hdescent, ⟨other, rfl, ?_⟩, ?_⟩
  · rw [← hsupport]
    refine hleast other htwo.symm fun heq => ?_
    have hother : other.support = [0, 1, 3] := rfl
    rw [← heq, hother] at hsupport
    exact absurd hsupport (by decide)
  · obtain ⟨bridge, hfind, hunder⟩ := hgate [0, 1, 2, 3] ⟨0, 3⟩ rfl rfl htwo
    have hlisted : (d.neighbours 0).find? (fun w => d.isAdjacent w 3) = some 2 := by
      decide +kernel
    cases hlisted.symm.trans hfind
    exact hunder

end QubitAllocation.Device
