import QubitAllocation.Proofs.Gate
import QubitAllocation.Proofs.Metric

/-!
# The gate that the distance calls for

`Gate.CalledFor d p u v op` says which gate on the pair `p` the couplings call for with its qubits
on `u` and `v`: a plain one along an edge, a reversed one against an edge that runs one way only,
and one over a qubit between them at distance two. The gate between two qubits is chosen by two look-ups
of edges and by the shape of a route, and the price of the dynamic programme is read off the hop
tables; both agree with this rule (`Gate.calledFor_of_between`, `Gate.gatePrice_iff`).

So there is a gate between two distinct qubits exactly if their distance is at most two, and what is
refused otherwise is told by the entry of the two qubits in the matrix of distances
(`Gate.between_of_beyond`).
-/

set_option autoImplicit false

namespace QubitAllocation

open Outcome

/-! ## Entries of the matrix of distances -/

namespace Device

variable {d : Device} {u v : Nat}

/-- The entry of two qubits in the matrix of distances. -/
def matrixHops? (d : Device) (u v : Nat) : Option Nat :=
  d.distanceMatrix[u]?.bind fun row => row[v]?

theorem matrixHops?_of_reachable (hu : u < d.size) (hv : v < d.size)
    (h : d.graph.Reachable u v) : d.matrixHops? u v = some (d.graph.dist u v) := by
  obtain ⟨row, hrow, hdist, -⟩ := exists_entry hu hv
  simp [matrixHops?, hrow, hdist h]

theorem matrixHops?_of_not_reachable (hu : u < d.size) (hv : v < d.size)
    (h : ¬ d.graph.Reachable u v) : d.matrixHops? u v = some unreachableHops := by
  obtain ⟨row, hrow, -, hapart⟩ := exists_entry hu hv
  simp [matrixHops?, hrow, hapart h]

/-- Coupled qubits are at distance one. -/
theorem dist_of_coupled (h : d.Coupled u v) : d.graph.dist u v = 1 :=
  SimpleGraph.dist_eq_one_iff_adj.2 h

theorem near_of_coupled (h : d.Coupled u v) : d.graph.Reachable u v ∧ d.graph.dist u v ≤ 2 := by
  have hadj : d.graph.Adj u v := h
  refine ⟨hadj.reachable, ?_⟩
  rw [dist_of_coupled h]
  exact one_le_two

/-- Distinct qubits at distance at most two that are not coupled are at distance two. -/
theorem dist_eq_two (hne : u ≠ v) (hreach : d.graph.Reachable u v) (hle : d.graph.dist u v ≤ 2)
    (hnot : ¬ d.Coupled u v) : d.graph.dist u v = 2 := by
  have hpos : 0 < d.graph.dist u v := hreach.pos_dist_of_ne hne
  have hone : d.graph.dist u v ≠ 1 := mt SimpleGraph.dist_eq_one_iff_adj.1 hnot
  omega

end Device

/-! ## The gate between two qubits -/

namespace Gate

variable {d : Device} {costs : CostModel} {p : Pair} {u v : Nat} {op : Operation}

/-- The gate on the pair that the couplings call for with its qubits on `u` and `v`. -/
inductive CalledFor (d : Device) (p : Pair) (u v : Nat) : Operation → Prop
  | plain : (u, v) ∈ d.edges → CalledFor d p u v (.cnot p.control p.target)
  | reversed : (v, u) ∈ d.edges → (u, v) ∉ d.edges →
      CalledFor d p u v (.rev p.control p.target)
  | bridged {w : Nat} : d.graph.dist u v = 2 → d.Coupled u w → d.Coupled w v →
      CalledFor d p u v (.longCnot p.control p.target w)

/-- The gate on the pair that the couplings call for where the mapping puts its qubits. -/
def CalledAt (d : Device) (M : List Nat) (p : Pair) (op : Operation) : Prop :=
  ∃ u v, M[p.control]? = some u ∧ M[p.target]? = some v ∧ CalledFor d p u v op

/-- The gate between two qubits is the one that is called for. -/
theorem calledFor_of_between (h : between d p u v = .ok op) : CalledFor d p u v op := by
  unfold between at h
  split_ifs at h with huv hvu
  · cases h
    exact .plain (d.hasEdge_iff.1 huv)
  · cases h
    exact .reversed (d.hasEdge_iff.1 hvu) (mt d.hasEdge_iff.2 huv)
  · -- a route over one qubit is a shortest one, so the distance is two
    obtain ⟨route, hroute, h⟩ := bind_eq_ok_iff.1 h
    have hisRoute := Device.isRoute_dist (ofDevice_eq_ok_iff.1 hroute)
    split at h
    · cases h
      have hlen := hisRoute.length_eq
      obtain ⟨hfirst, hsecond⟩ := coupled_of_isRoute hisRoute
      refine .bridged ?_ hfirst hsecond
      simpa using hlen.symm
    · cases h

/-- A gate is called for only between qubits at distance at most two. -/
theorem CalledFor.near (h : CalledFor d p u v op) :
    d.graph.Reachable u v ∧ d.graph.dist u v ≤ 2 := by
  cases h with
  | plain huv => exact Device.near_of_coupled (Or.inl huv)
  | reversed hvu _ => exact Device.near_of_coupled (Or.inr hvu)
  | bridged htwo _ _ => exact ⟨SimpleGraph.Reachable.of_dist_ne_zero (by omega), htwo.le⟩

/-- Qubits that are not coupled are bridged if their route passes over one qubit. -/
theorem between_of_bridge (p : Pair) (h : ¬ d.Coupled u v) {a w b : Nat}
    (hr : d.route u v = .ok [a, w, b]) :
    between d p u v = .ok (.longCnot p.control p.target w) := by
  obtain ⟨huv, hvu⟩ := not_or.1 h
  unfold between
  rw [if_neg (mt d.hasEdge_iff.1 huv), if_neg (mt d.hasEdge_iff.1 hvu), hr]
  rfl

/-- Otherwise the number of hops is reported. -/
theorem between_of_long (p : Pair) (h : ¬ d.Coupled u v) {r : List Nat} (hr : d.route u v = .ok r)
    (hlen : r.length ≠ 3) : between d p u v = .error (.outOfBridgeReach u v (r.length - 1)) := by
  obtain ⟨huv, hvu⟩ := not_or.1 h
  unfold between
  rw [if_neg (mt d.hasEdge_iff.1 huv), if_neg (mt d.hasEdge_iff.1 hvu),
    bind_of_eq_ok (ofDevice_eq_ok_iff.2 hr)]
  split
  · exact absurd rfl hlen
  · rfl

/-- There is a gate between distinct qubits at distance at most two. -/
theorem exists_between (p : Pair) (hu : u < d.size) (hv : v < d.size) (hne : u ≠ v)
    (hreach : d.graph.Reachable u v) (hle : d.graph.dist u v ≤ 2) :
    ∃ op, between d p u v = .ok op := by
  by_cases hcoupled : d.Coupled u v
  · unfold between
    split_ifs with huv hvu
    · exact ⟨_, rfl⟩
    · exact ⟨_, rfl⟩
    · rw [d.hasEdge_iff] at huv hvu
      exact absurd hcoupled (not_or.2 ⟨huv, hvu⟩)
  · obtain ⟨r, hr⟩ := Device.exists_route_iff.2 ⟨hu, hv, hreach⟩
    have hlen := (Device.isRoute_dist hr).length_eq
    rw [Device.dist_eq_two hne hreach hle hcoupled] at hlen
    obtain ⟨a, w, b, rfl⟩ := List.length_eq_three.1 hlen
    exact ⟨_, between_of_bridge p hcoupled hr⟩

/-- What is refused between qubits that are further apart: the entry of the matrix is three or
more, and it is the distance that is reported, or the mark of a pair without a route. -/
theorem between_of_beyond (hsize : d.size < 2 ^ 32) (p : Pair) (hu : u < d.size) (hv : v < d.size)
    (hbeyond : ¬ (d.graph.Reachable u v ∧ d.graph.dist u v ≤ 2)) :
    ∃ x, d.matrixHops? u v = some x ∧ 3 ≤ x ∧ between d p u v =
      .error (if x = 2 ^ 32 - 1 then .device (.unreachable u v) else .outOfBridgeReach u v x) := by
  have hnot : ¬ d.Coupled u v := mt Device.near_of_coupled hbeyond
  by_cases hreach : d.graph.Reachable u v
  · -- the route is too long, and its number of hops is no mark
    have hfar : 3 ≤ d.graph.dist u v := by
      have := not_and.1 hbeyond hreach
      omega
    have hlt : d.graph.dist u v < d.size := Device.dist_lt hu
    obtain ⟨r, hr⟩ := Device.exists_route_iff.2 ⟨hu, hv, hreach⟩
    have hlen := (Device.isRoute_dist hr).length_eq
    refine ⟨_, Device.matrixHops?_of_reachable hu hv hreach, hfar, ?_⟩
    rw [if_neg (by omega), between_of_long p hnot hr (by omega), hlen, Nat.add_sub_cancel]
  · obtain ⟨huv, hvu⟩ := not_or.1 hnot
    have hmark : Device.unreachableHops = 2 ^ 32 - 1 := rfl
    refine ⟨_, Device.matrixHops?_of_not_reachable hu hv hreach, by decide, ?_⟩
    unfold between
    rw [if_pos hmark, if_neg (mt d.hasEdge_iff.1 huv), if_neg (mt d.hasEdge_iff.1 hvu),
      Device.route_eq_error_iff.2 fun h => hreach h.2.2]
    rfl

/-- The price that the hop tables give is that of the gate that is called for. -/
theorem gatePrice_iff (p : Pair) (hu : u < d.size) (hv : v < d.size) {g : Nat} :
    Exact.gatePrice? d d.hopTables costs u v = some g ↔
      ∃ op, CalledFor d p u v op ∧ costs.price op = g := by
  constructor
  · intro h
    obtain ⟨op, hbetween, -, hprice⟩ := between_of_gatePrice (p := p) hu hv h
    exact ⟨op, calledFor_of_between hbetween, hprice⟩
  · rintro ⟨op, hcalled, rfl⟩
    unfold Exact.gatePrice?
    cases hcalled with
    | plain huv =>
      rw [if_pos (d.hasEdge_iff.2 huv)]
      rfl
    | reversed hvu huv =>
      rw [if_neg (mt d.hasEdge_iff.1 huv), if_pos (d.hasEdge_iff.2 hvu)]
      rfl
    | bridged htwo _ _ =>
      -- at distance two there is no edge, and the table has the distance
      have hnot : ¬ d.Coupled u v := by
        intro hcoupled
        have hone := Device.dist_of_coupled hcoupled
        omega
      obtain ⟨huv, hvu⟩ := not_or.1 hnot
      have hreach : d.graph.Reachable u v := SimpleGraph.Reachable.of_dist_ne_zero (by omega)
      have hhops : Device.hopsBetween d.hopTables u v = some 2 :=
        (Device.hopsBetween_hopTables_iff hu hv).2 (Device.isDepth_iff.2 ⟨hreach, htwo⟩)
      rw [if_neg (mt d.hasEdge_iff.1 huv), if_neg (mt d.hasEdge_iff.1 hvu), hhops]
      rfl

end Gate

end QubitAllocation
