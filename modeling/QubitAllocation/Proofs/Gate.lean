import QubitAllocation.Proofs.Replay.Run
import QubitAllocation.Proofs.Route
import QubitAllocation.Strategy.Exact

/-!
# Gates for a pair

`Gate.Realizes d p u v op` says that `op` is a gate on the pair `p` that the device allows with the
pair's qubits on `u` and `v`. The gate between two qubits does (`Gate.realizes_of_between`). Where
the dynamic programme sees a price for a pair, there is a gate between its qubits, at that price
(`Gate.between_of_gatePrice`), although the price is read off the hop tables and the gate off a
route. Conversely, where any gate realizes the pair, there is a price (`Gate.exists_gatePrice`), and
it is no higher than the gate's unless a gate over a bridge is cheaper than a reversed one and is
used on coupled qubits (`Gate.gatePrice_le`).
-/

set_option autoImplicit false

namespace QubitAllocation.Gate

open Replay Outcome

/-- The operation is a gate on the pair and is allowed with its qubits on `u` and `v`. -/
structure Realizes (d : Device) (p : Pair) (u v : Nat) (op : Operation) : Prop where
  operands : op.operands = (p.control, p.target)
  not_swap : op.isSwap = false
  allowed : Allows d u v op

variable {d : Device} {costs : CostModel} {p : Pair} {u v g : Nat} {op : Operation}

theorem Realizes.canRun (h : Realizes d p u v op) {M : List Nat}
    (hM : Arrangement.IsArrangement d.size M) (hu : M[p.control]? = some u)
    (hv : M[p.target]? = some v) : CanRun d M op := by
  apply canRun_of_allows hM _ _ h.allowed
  · rw [h.operands, hu]
  · rw [h.operands, hv]

/-- A plain gate realizes a pair along an edge. -/
theorem realizes_cnot (huv : d.hasEdge u v = true) :
    Realizes d p u v (.cnot p.control p.target) :=
  ⟨rfl, rfl, d.hasEdge_iff.1 huv⟩

/-- A reversed gate realizes a pair against an edge that runs one way. -/
theorem realizes_rev (huv : ¬ d.hasEdge u v = true) (hvu : d.hasEdge v u = true) :
    Realizes d p u v (.rev p.control p.target) :=
  ⟨rfl, rfl, d.hasEdge_iff.1 hvu, mt d.hasEdge_iff.2 huv⟩

/-- The qubit in the middle of a route of two hops is coupled with both ends. -/
theorem coupled_of_isRoute {k x w y : Nat} (h : d.IsRoute u v k [x, w, y]) :
    d.Coupled u w ∧ d.Coupled w v := by
  obtain rfl : x = u := by simpa using h.head_eq
  obtain rfl : y = v := by simpa using h.last_eq
  have hlinked := h.linked
  rw [List.isChain_cons_cons, List.isChain_cons_cons] at hlinked
  exact ⟨hlinked.1, hlinked.2.1⟩

/-- The gate between two qubits realizes the pair. -/
theorem realizes_of_between (h : between d p u v = .ok op) : Realizes d p u v op := by
  unfold between at h
  split_ifs at h with huv hvu
  · cases h
    exact realizes_cnot huv
  · cases h
    exact realizes_rev huv hvu
  · obtain ⟨route, hroute, h⟩ := bind_eq_ok_iff.1 h
    obtain ⟨k, -, hisRoute⟩ := Device.isRoute_of_route (ofDevice_eq_ok_iff.1 hroute)
    split at h
    · cases h
      exact ⟨rfl, rfl, coupled_of_isRoute hisRoute⟩
    · cases h

/-- The gate between two qubits realizes the pair at the price that the hop tables give. -/
theorem between_of_gatePrice (hu : u < d.size) (hv : v < d.size)
    (h : Exact.gatePrice? d d.hopTables costs u v = some g) :
    ∃ op, between d p u v = .ok op ∧ Realizes d p u v op ∧ costs.price op = g := by
  suffices hbetween : ∃ op, between d p u v = .ok op ∧ costs.price op = g by
    obtain ⟨op, hop, hprice⟩ := hbetween
    exact ⟨op, hop, realizes_of_between hop, hprice⟩
  unfold Exact.gatePrice? at h
  unfold between
  split_ifs at h with huv hvu htwo
  · cases h
    exact ⟨_, if_pos huv, rfl⟩
  · cases h
    exact ⟨.rev p.control p.target, by rw [if_neg huv, if_pos hvu], rfl⟩
  · cases h
    rw [beq_iff_eq, Device.hopsBetween_hopTables_iff hu hv] at htwo
    obtain ⟨r, hr, hroute⟩ := Device.route_of_isDepth hu hv htwo
    rw [if_neg huv, if_neg hvu, hr]
    match r, hroute.length_eq with
    | [_, w, _], _ => exact ⟨.longCnot p.control p.target w, rfl, rfl⟩

/-- Where a gate realizes a pair of distinct qubits, the hop tables give a price. -/
theorem exists_gatePrice (costs : CostModel) (hu : u < d.size) (hv : v < d.size) (hne : u ≠ v)
    (h : Realizes d p u v op) : ∃ g, Exact.gatePrice? d d.hopTables costs u v = some g := by
  unfold Exact.gatePrice?
  split_ifs with huv hvu htwo
  · exact ⟨_, rfl⟩
  · exact ⟨_, rfl⟩
  · exact ⟨_, rfl⟩
  · -- no edge either way: only a bridge could realize the pair, and that makes two hops
    exfalso
    rw [d.hasEdge_iff] at huv hvu
    rw [beq_iff_eq, Device.hopsBetween_hopTables_iff hu hv] at htwo
    have hallowed := h.allowed
    cases op with
    | swap a b => exact Bool.noConfusion h.not_swap
    | cnot a b => exact huv hallowed
    | rev a b => exact hvu hallowed.1
    | longCnot a b w =>
      exact htwo (Device.isDepth_two hne (not_or.2 ⟨huv, hvu⟩) hallowed.1 hallowed.2)

/-- The price is no higher than that of any gate, unless a bridge is cheaper than a reversal and is
used between coupled qubits. -/
theorem gatePrice_le (h : Realizes d p u v op)
    (hprice : Exact.gatePrice? d d.hopTables costs u v = some g)
    (hbridge : costs.reverse ≤ costs.longCnot ∨
      ∀ a b w, op = .longCnot a b w → ¬ d.Coupled u v) : g ≤ costs.price op := by
  unfold Exact.gatePrice? at hprice
  have hallowed := h.allowed
  split_ifs at hprice with huv hvu htwo
  · cases hprice
    exact Nat.zero_le _
  · cases hprice
    rw [d.hasEdge_iff] at huv hvu
    cases op with
    | swap a b => exact Bool.noConfusion h.not_swap
    | cnot a b => exact absurd hallowed huv
    | rev a b => exact Nat.le_refl _
    | longCnot a b w =>
      -- the one place where the price can be beaten
      rcases hbridge with hle | hapart
      · exact hle
      · exact absurd (Or.inr hvu) (hapart a b w rfl)
  · cases hprice
    rw [d.hasEdge_iff] at huv hvu
    cases op with
    | swap a b => exact Bool.noConfusion h.not_swap
    | cnot a b => exact absurd hallowed huv
    | rev a b => exact absurd hallowed.1 hvu
    | longCnot a b w => exact Nat.le_refl _

end QubitAllocation.Gate
