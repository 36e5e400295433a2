import QubitAllocation.Device.Route
import QubitAllocation.Proofs.Coupling
import QubitAllocation.Proofs.QueueSearch

/-!
# Hops and routes on a device

A hop leads from a qubit to one coupled with it. The hop tables hold the least numbers of hops
(`Device.hopsAt_hops_iff`), the same in both directions. A route follows the soonest itinerary
between its ends (`Device.route_cases`), so `Device.route` answers exactly between linked qubits,
with a route of least length that passes no qubit twice (`Device.route_of_isDepth`).
-/

set_option autoImplicit false

namespace QubitAllocation.Device

open Search Itinerary

variable {d : Device} {u v w k : Nat}

/-! ## Hop distances -/

/-- The qubits of a device are numbered by themselves. -/
theorem numbering (d : Device) : Numbering d.size id d.neighbours (· < d.size) where
  closed := fun _ hy => ((d.mem_neighbours_iff).1 hy).lt.2
  index_lt := fun hx => hx
  index_inj := fun _ _ h => h

/-- Hop distances do not depend on the direction. -/
theorem isDepth_symm (h : IsDepth d.neighbours u k v) : IsDepth d.neighbours v k u :=
  h.symm mem_neighbours_symm

/-- Distinct qubits that are not coupled but have a common neighbour are two hops apart. -/
theorem isDepth_two (hne : u ≠ v) (hnot : ¬ d.Coupled u v) (huw : d.Coupled u w)
    (hwv : d.Coupled w v) : IsDepth d.neighbours u 2 v := by
  refine ⟨.step (.step .refl (d.mem_neighbours_iff.2 huw)) (d.mem_neighbours_iff.2 hwv), ?_⟩
  intro j hj
  match j, hj with
  | 0, hj => exact absurd (walk_zero_iff.1 hj) hne
  | 1, hj =>
    obtain ⟨x, hx, hxv⟩ := walk_succ_iff.1 hj
    obtain rfl := walk_zero_iff.1 hx
    exact absurd (d.mem_neighbours_iff.1 hxv) hnot
  | j + 2, _ => omega

/-- The search from a qubit of the device answers, and surveys the qubits in reach. -/
theorem surveys_hops (hu : u < d.size) :
    depths? d.size id d.neighbours u = some (d.hops u) ∧
      ∃ origins, Surveys d.size id d.neighbours (· < d.size) u (d.hops u) origins := by
  obtain ⟨table, htable, hsurveys⟩ := exists_depths (numbering d) hu
  have hhops : d.hops u = table := by rw [hops, htable, Option.getD_some]
  rw [hhops]
  exact ⟨htable, hsurveys⟩

theorem size_hops (hu : u < d.size) : (d.hops u).size = d.size := by
  obtain ⟨-, origins, hsurveys⟩ := surveys_hops hu
  exact hsurveys.size_eq

/-- The hop table of a qubit has the least numbers of hops. -/
theorem hopsAt_hops_iff (hu : u < d.size) (hv : v < d.size) :
    hopsAt (d.hops u) v = some k ↔ IsDepth d.neighbours u k v := by
  obtain ⟨-, origins, hsurveys⟩ := surveys_hops hu
  rw [← hsurveys.depth_iff hv k]
  exact Option.join_eq_some_iff

theorem hopsBetween_hopTables_iff (hu : u < d.size) (hv : v < d.size) :
    hopsBetween d.hopTables u v = some k ↔ IsDepth d.neighbours u k v := by
  have htable : d.hopTables.getD u #[] = d.hops u := by
    rw [hopTables, Array.getD_eq_getD_getElem?, Array.getElem?_map, Array.getElem?_range,
      if_pos hu]
    rfl
  rw [hopsBetween, htable, hopsAt_hops_iff hu hv]

/-! ## Routes -/

/-- A route of `k` hops from `u` to `v` that passes no qubit twice. -/
structure IsRoute (d : Device) (u v k : Nat) (r : List Nat) : Prop where
  length_eq : r.length = k + 1
  head_eq : r.head? = some u
  last_eq : r.getLast? = some v
  linked : r.IsChain d.Coupled
  nodup : r.Nodup

theorem IsRoute.reverse {r : List Nat} (h : d.IsRoute u v k r) : d.IsRoute v u k r.reverse where
  length_eq := by rw [List.length_reverse, h.length_eq]
  head_eq := by rw [List.head?_reverse, h.last_eq]
  last_eq := by rw [List.getLast?_reverse, h.head_eq]
  linked := List.isChain_reverse.2 (h.linked.imp fun _ _ hc => hc.symm)
  nodup := List.nodup_reverse.2 h.nodup

/-- A route stays on the device. -/
theorem IsRoute.lt {r : List Nat} (h : d.IsRoute u v k r) (hu : u < d.size) :
    ∀ x ∈ r, x < d.size := by
  obtain ⟨-, hhead, -, hlinked, -⟩ := h
  induction r generalizing u with
  | nil => exact List.forall_mem_nil _
  | cons y r ih =>
    cases hhead
    refine List.forall_mem_cons.2 ⟨hu, ?_⟩
    cases r with
    | nil => exact List.forall_mem_nil _
    | cons z r =>
      rw [List.isChain_cons_cons] at hlinked
      exact ih hlinked.1.lt.2 rfl hlinked.2

/-- A route of some hops ends in a hop. -/
theorem IsRoute.exists_lastHop {r : List Nat} (h : d.IsRoute u v (k + 1) r) :
    ∃ front w, r = front ++ [w, v] ∧ front.length = k ∧ d.Coupled w v := by
  obtain ⟨rest, hr⟩ := List.getLast?_eq_some_iff.1 h.last_eq
  have hlen := h.length_eq
  rw [hr, List.length_append, List.length_singleton] at hlen
  have hne : rest ≠ [] := List.ne_nil_of_length_pos (by omega)
  obtain ⟨front, w, hrest⟩ := rest.eq_nil_or_concat.resolve_left hne
  have hsplit : r = front ++ [w, v] := by rw [hr, hrest]; simp
  refine ⟨front, w, hsplit, ?_, ?_⟩
  · rw [hrest] at hlen
    simp only [List.concat_eq_append, List.length_append, List.length_singleton] at hlen
    omega
  · have hlinked := h.linked
    rw [hsplit] at hlinked
    exact List.isChain_pair.1 hlinked.right_of_append

/-- The hops of a route are between coupled qubits. -/
theorem coupled_of_mem_zip_tail {r : List Nat} (h : r.IsChain d.Coupled) {hop : Nat × Nat}
    (hhop : hop ∈ r.zip r.tail) : d.Coupled hop.1 hop.2 := by
  induction r with
  | nil => exact absurd hhop List.not_mem_nil
  | cons x r ih =>
    cases r with
    | nil => exact absurd hhop List.not_mem_nil
    | cons y r =>
      rw [List.isChain_cons_cons] at h
      rcases List.mem_cons.1 hhop with rfl | hhop
      · exact h.1
      · exact ih h.2 hhop

/-- Some number of hops leads from one qubit to the other. -/
def Linked (d : Device) (u v : Nat) : Prop := ∃ k, Walk d.neighbours u k v

/-- Every two qubits of the device are linked. -/
def Connected (d : Device) : Prop := ∀ u v, u < d.size → v < d.size → d.Linked u v

/-- The soonest itinerary passes no qubit twice, and none that is further away than its end. -/
theorem isRoute_of_soonest {places : List Nat} (h : Soonest d.neighbours u v places) :
    IsRoute d u v places.length (stops d.neighbours u places) ∧
      ∀ x ∈ stops d.neighbours u places, ∃ j ≤ places.length, IsDepth d.neighbours u j x := by
  induction places using List.reverseRecOn generalizing v with
  | nil =>
    cases h.leads
    refine ⟨⟨rfl, rfl, rfl, List.isChain_singleton u, List.nodup_singleton u⟩, ?_⟩
    intro x hx
    rw [List.mem_singleton.1 hx]
    exact ⟨0, Nat.le_refl 0, isDepth_zero_iff.2 rfl⟩
  | append_singleton places i ih =>
    obtain ⟨w, hw, hplace⟩ := follow_append_step_eq_some_iff.1 h.leads
    obtain ⟨hroute, hdepths⟩ := ih (h.of_append_step hw)
    have hcoupled : d.Coupled w v := d.mem_neighbours_iff.1 (List.mem_of_getElem? hplace)
    have hdepth := h.isDepth
    rw [stops_append_step h.leads, List.length_append, List.length_singleton]
    rw [List.length_append, List.length_singleton] at hdepth
    refine ⟨⟨?_, ?_, List.getLast?_concat, ?_, ?_⟩, ?_⟩
    · rw [List.length_append, hroute.length_eq, List.length_singleton]
    · rw [List.head?_append, hroute.head_eq]
      rfl
    · refine List.isChain_append.2 ⟨hroute.linked, List.isChain_singleton v, ?_⟩
      intro x hx y hy
      rw [hroute.last_eq] at hx
      cases hx
      cases hy
      exact hcoupled
    · -- what was passed before is closer to `u` than `v` is
      rw [← List.concat_eq_append]
      refine hroute.nodup.concat fun hmem => ?_
      obtain ⟨j, hj, hjv⟩ := hdepths v hmem
      have := hjv.unique hdepth
      omega
    · intro x hx
      rcases List.mem_append.1 hx with hx | hx
      · obtain ⟨j, hj, hjx⟩ := hdepths x hx
        exact ⟨j, by omega, hjx⟩
      · rw [List.mem_singleton.1 hx]
        exact ⟨_, Nat.le_refl _, hdepth⟩

/-- **A route follows the soonest itinerary between its ends**, and is refused only if there is
none. -/
theorem route_cases (hu : u < d.size) (hv : v < d.size) :
    (∃ places, Soonest d.neighbours u v places ∧
      d.route u v = .ok (stops d.neighbours u places)) ∨
    d.route u v = .error (.unreachable u v) ∧ ∀ places, follow d.neighbours u places ≠ some v := by
  rw [route, if_neg (by omega)]
  by_cases heq : u = v
  · subst heq
    rw [if_pos rfl]
    exact Or.inl ⟨[], ⟨rfl, fun m _ => not_sooner_nil m⟩, rfl⟩
  · have hroot : (u == v) = false := beq_eq_false_iff_ne.2 heq
    rw [if_neg heq]
    rcases run_cases (fun w => w == v) d.numbering hu hroot with
      ⟨found, done, hrun, hstage⟩ | ⟨found, places, x, hrun, hstops⟩
    · refine Or.inr ⟨by rw [hrun], fun m hm => ?_⟩
      obtain ⟨places, hplaces, hlead, -⟩ := hstage.explored.exists_of_follow hm
      exact absurd (hstage.no_goal places hplaces v hlead) (by simp)
    · obtain rfl : x = v := beq_iff_eq.1 hstops.isGoal
      obtain ⟨tried, order, hmem, hexplored⟩ := hstops.found
      have hsoonest : Soonest d.neighbours u x places :=
        ⟨hstops.leads, fun m hm => hstops.first m x hm (beq_self_eq_true x)⟩
      -- a qubit is passed once at most, so there is fuel for the way back
      have hfuel : places.length ≤ d.size := by
        obtain ⟨hroute, -⟩ := isRoute_of_soonest hsoonest
        have hsub : stops d.neighbours u places ⊆ List.range d.size :=
          fun y hy => List.mem_range.2 (hroute.lt hu y hy)
        have hlen := (hroute.nodup.subperm hsub).length_le
        rw [hroute.length_eq, List.length_range] at hlen
        omega
      have hback := (hexplored.retrace_eq hmem hstops.leads hfuel).2
      rw [List.map_id] at hback
      exact Or.inl ⟨places, hsoonest, by rw [hrun]; exact congrArg Except.ok hback⟩

theorem route_of_le (h : d.size ≤ u ∨ d.size ≤ v) : d.route u v = .error (.unreachable u v) :=
  if_pos h

/-- A route is answered between qubits of the device only. -/
theorem lt_of_route {r : List Nat} (h : d.route u v = .ok r) : u < d.size ∧ v < d.size := by
  by_contra hout
  rw [route_of_le (by omega)] at h
  cases h

/-- **Between linked qubits there is a route of least length.** -/
theorem route_of_isDepth (hu : u < d.size) (hv : v < d.size) (h : IsDepth d.neighbours u k v) :
    ∃ r, d.route u v = .ok r ∧ IsRoute d u v k r := by
  rcases route_cases hu hv with ⟨places, hsoonest, hroute⟩ | ⟨-, hnone⟩
  · obtain rfl := hsoonest.isDepth.unique h
    exact ⟨_, hroute, (isRoute_of_soonest hsoonest).1⟩
  · obtain ⟨places, -, hplaces⟩ := exists_follow_of_walk h.1
    exact absurd hplaces (hnone places)

/-- An answer follows the soonest itinerary. -/
theorem exists_soonest_of_route {r : List Nat} (h : d.route u v = .ok r) :
    ∃ places, Soonest d.neighbours u v places ∧ stops d.neighbours u places = r := by
  obtain ⟨hu, hv⟩ := lt_of_route h
  rcases route_cases hu hv with ⟨places, hsoonest, hroute⟩ | ⟨hroute, -⟩
  · rw [h] at hroute
    cases hroute
    exact ⟨places, hsoonest, rfl⟩
  · rw [h] at hroute
    cases hroute

/-- An answer is a route of least length. -/
theorem isRoute_of_route {r : List Nat} (h : d.route u v = .ok r) :
    ∃ k, IsDepth d.neighbours u k v ∧ IsRoute d u v k r := by
  obtain ⟨places, hsoonest, rfl⟩ := exists_soonest_of_route h
  exact ⟨_, hsoonest.isDepth, (isRoute_of_soonest hsoonest).1⟩

/-- A route is refused for want of a link between the two qubits only. -/
theorem error_of_route {e : DeviceError} (h : d.route u v = .error e) : e = .unreachable u v := by
  by_cases hout : d.size ≤ u ∨ d.size ≤ v
  · rw [route_of_le hout] at h
    cases h
    rfl
  · rcases route_cases (d := d) (u := u) (v := v) (by omega) (by omega) with
      ⟨places, -, hroute⟩ | ⟨hroute, -⟩
    · rw [h] at hroute
      cases hroute
    · rw [h] at hroute
      cases hroute
      rfl

theorem exists_route_of_linked (hu : u < d.size) (hv : v < d.size) (h : d.Linked u v) :
    ∃ r, d.route u v = .ok r := by
  obtain ⟨k, hk⟩ := h
  obtain ⟨j, -, hj⟩ := hk.exists_isDepth
  obtain ⟨r, hr, -⟩ := route_of_isDepth hu hv hj
  exact ⟨r, hr⟩

/-! ## Connected devices -/

theorem Linked.symm (h : d.Linked u v) : d.Linked v u :=
  h.imp fun _ hk => hk.symm mem_neighbours_symm

theorem Linked.trans (h : d.Linked u v) (h' : d.Linked v w) : d.Linked u w := by
  obtain ⟨k, hk⟩ := h
  obtain ⟨k', hk'⟩ := h'
  exact ⟨k + k', hk.trans hk'⟩

/-- The test for connected devices is right: all qubits are linked through qubit 0. -/
theorem connected_of_isConnected (h : d.isConnected = true) : d.Connected := by
  rw [isConnected, Bool.or_eq_true, decide_eq_true_eq, Array.all_eq_true] at h
  intro u v hu hv
  rcases h with hsmall | hall
  · obtain rfl : u = v := by omega
    exact ⟨0, .refl⟩
  · have hzero : ∀ x, x < d.size → d.Linked 0 x := by
      intro x hx
      have hpos : 0 < d.size := Nat.zero_lt_of_lt hx
      have hx' : x < (d.hops 0).size := by rwa [size_hops hpos]
      obtain ⟨k, hk⟩ := Option.isSome_iff_exists.1 (hall x hx')
      have hat : hopsAt (d.hops 0) x = some k := by
        rw [hopsAt, Array.getElem?_eq_getElem hx', hk]
        rfl
      exact ⟨k, ((hopsAt_hops_iff hpos hx).1 hat).1⟩
    exact (hzero u hu).symm.trans (hzero v hv)

end QubitAllocation.Device
