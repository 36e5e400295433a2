import QubitAllocation.Device.Catalog
import QubitAllocation.Proofs.Metric
import Mathlib.Data.Nat.Dist

/-!
# The shapes of the built-in families

Chains, rings and stars are given by their edges; what a user expects of them is a picture, in which
the hops between two qubits can be counted. `Device.Gauge` turns such a picture into a proof: a
number for each qubit that vanishes at the goal only, that no hop lowers by more than one, and that
some hop lowers by one as long as the goal is not reached. The first bound says that no walk can be
shorter, the second one that a walk of this length exists, so a gauge is the number of hops
(`Gauge.isDepth`), whatever search has filled the tables.

Each family has its gauge at every size. The ring is the one with corner cases: on two qubits the
closing edge is left out, and on fewer there is no edge at all. `families_have_shape` collects what
follows for the matrix of distances, for connectedness and for the directions of couplings.
-/

set_option autoImplicit false

namespace QubitAllocation.Device

open Search

/-! ## Gauges -/

/-- `g` counts the hops from each qubit to `v`. -/
structure Gauge (d : Device) (v : Nat) (g : Nat → Nat) : Prop where
  goal_lt : v < d.size
  goal : g v = 0
  only : ∀ x < d.size, g x = 0 → x = v
  slow : ∀ x y, d.Coupled x y → g x ≤ g y + 1
  falls : ∀ x < d.size, g x ≠ 0 → ∃ y, d.Coupled x y ∧ g y + 1 = g x

section Gauges

variable {d : Device} {u v k : Nat} {g : Nat → Nat}

/-- A walk lowers the gauge by its length at most. -/
theorem Gauge.le_of_walk (h : d.Gauge v g) {w : Nat} (hwalk : Walk d.neighbours u k w) :
    g u ≤ g w + k := by
  induction hwalk with
  | refl => exact Nat.le_refl _
  | @step k x y _ hy ih =>
    have hhop : g x ≤ g y + 1 := h.slow x y (d.mem_neighbours_iff.1 hy)
    omega

/-- Down the gauge there is a walk to the goal. -/
theorem Gauge.exists_walk (h : d.Gauge v g) (hu : u < d.size) : Walk d.neighbours u (g u) v := by
  induction hk : g u generalizing u with
  | zero =>
    rw [h.only u hu hk]
    exact .refl
  | succ k ih =>
    obtain ⟨y, hy, hfall⟩ := h.falls u hu (by omega)
    exact walk_succ_iff_head.2 ⟨y, d.mem_neighbours_iff.2 hy, ih hy.lt.2 (by omega)⟩

/-- **A gauge is the least number of hops.** -/
theorem Gauge.isDepth (h : d.Gauge v g) (hu : u < d.size) : IsDepth d.neighbours u (g u) v := by
  refine ⟨h.exists_walk hu, fun k hwalk => ?_⟩
  have hle : g u ≤ g v + k := h.le_of_walk hwalk
  rwa [h.goal, Nat.zero_add] at hle

/-- The entry of two qubits in the matrix of distances. -/
def cell? (d : Device) (u v : Nat) : Option Nat := do
  let row ← d.distanceMatrix[u]?
  row[v]?

theorem Gauge.cell?_eq (h : d.Gauge v g) (hu : u < d.size) : d.cell? u v = some (g u) := by
  obtain ⟨row, hrow, hentry⟩ := getElem?_distanceMatrix hu h.goal_lt
  rw [(hopsAt_hops_iff hu h.goal_lt).2 (h.isDepth hu)] at hentry
  rw [cell?, hrow]
  exact hentry

/-- A device is connected if there is a gauge for each of its qubits. -/
theorem isConnected_of_gauges {gauge : Nat → Nat → Nat}
    (h : ∀ v < d.size, d.Gauge v (gauge v)) : d.isConnected = true := by
  rw [isConnected_iff]
  intro u v hu hv
  exact ⟨_, (h v hv).exists_walk hu⟩

end Gauges

/-! ## Chains -/

section Families

variable {n u v : Nat}

/-- A device of a family has the edges of the family, since they are listed once. -/
theorem mem_edges_single {edges : List (Nat × Nat)} {valid : ∀ e ∈ edges, ValidEdge n e}
    {e : Nat × Nat} : e ∈ (single n edges valid).edges ↔ e ∈ edges := by
  show e ∈ (Links.ofEdges _ edges).kept.toList ↔ _
  rw [Links.kept_ofEdges, List.mem_eraseDups]

theorem mem_chainEdges_iff : (u, v) ∈ chainEdges n ↔ v = u + 1 ∧ v < n := by
  simp only [chainEdges, List.mem_map, List.mem_range, Prod.mk.injEq]
  constructor
  · rintro ⟨i, hi, rfl, rfl⟩
    omega
  · rintro ⟨rfl, hv⟩
    exact ⟨u, by omega, rfl, rfl⟩

theorem mem_ringEdges_iff :
    (u, v) ∈ ringEdges n ↔ (v = u + 1 ∧ v < n) ∨ (2 < n ∧ u = n - 1 ∧ v = 0) := by
  rw [ringEdges, List.mem_append, mem_chainEdges_iff]
  split_ifs with hn <;> simp [hn]

theorem mem_starEdges_iff : (u, v) ∈ starEdges n ↔ u = 0 ∧ 0 < v ∧ v < n := by
  simp only [starEdges, List.mem_map, List.mem_range, Prod.mk.injEq]
  constructor
  · rintro ⟨i, hi, rfl, rfl⟩
    omega
  · rintro ⟨rfl, hpos, hv⟩
    exact ⟨v - 1, by omega, rfl, by omega⟩

theorem coupled_linear_iff :
    (linear n).Coupled u v ↔ (v = u + 1 ∧ v < n) ∨ (u = v + 1 ∧ u < n) := by
  rw [Coupled, linear, mem_edges_single, mem_edges_single, mem_chainEdges_iff, mem_chainEdges_iff]

theorem gauge_linear (hv : v < n) : (linear n).Gauge v fun x => Nat.dist x v where
  goal_lt := hv
  goal := Nat.dist_self v
  only x _ := Nat.eq_of_dist_eq_zero
  slow x y h := by
    rw [coupled_linear_iff] at h
    simp only [Nat.dist]
    omega
  falls x hx hne := by
    have hx : x < n := hx
    -- towards `v`, up or down the chain
    simp only [coupled_linear_iff]
    rcases Nat.lt_or_ge x v with hlt | hge
    · exact ⟨x + 1, by omega, by simp only [Nat.dist]; omega⟩
    · simp only [Nat.dist] at hne ⊢
      exact ⟨x - 1, by omega, by omega⟩

/-! ## Rings -/

theorem coupled_ring_iff : (ring n).Coupled u v ↔
    ((v = u + 1 ∧ v < n) ∨ (2 < n ∧ u = n - 1 ∧ v = 0)) ∨
      ((u = v + 1 ∧ u < n) ∨ (2 < n ∧ v = n - 1 ∧ u = 0)) := by
  rw [Coupled, ring, mem_edges_single, mem_edges_single, mem_ringEdges_iff, mem_ringEdges_iff]

/-- The shorter way round a ring of `n` qubits. -/
def ringHops (n u v : Nat) : Nat := min (Nat.dist u v) (n - Nat.dist u v)

theorem ringHops_of_le (h : u ≤ v) : ringHops n u v = min (v - u) (n - (v - u)) := by
  rw [ringHops, Nat.dist_eq_sub_of_le h]

theorem ringHops_of_ge (h : v ≤ u) : ringHops n u v = min (u - v) (n - (u - v)) := by
  rw [ringHops, Nat.dist_eq_sub_of_le_right h]

/-- A hop along the chain changes the shorter way by one at most. -/
theorem ringHops_succ (hu : u + 1 < n) (hv : v < n) :
    ringHops n u v ≤ ringHops n (u + 1) v + 1 ∧ ringHops n (u + 1) v ≤ ringHops n u v + 1 := by
  rcases Nat.lt_or_ge u v with hlt | hge
  · rw [ringHops_of_le hlt.le, ringHops_of_le hlt]
    omega
  · rw [ringHops_of_ge hge, ringHops_of_ge (Nat.le_succ_of_le hge)]
    omega

/-- From either end of the chain the shorter way is along the chain or through the other end. -/
theorem ringHops_ends (hv : v < n) :
    ringHops n 0 v = min v (n - v) ∧ ringHops n (n - 1) v = min (n - 1 - v) (v + 1) := by
  rw [ringHops_of_le (Nat.zero_le v), ringHops_of_ge (by omega), Nat.sub_zero]
  exact ⟨rfl, by omega⟩

/-- Above the goal, down the chain or up to its end and on to qubit 0; below it, the other way
round. -/
theorem exists_ring_closer (hu : u < n) (hv : v < n) (hne : u ≠ v) :
    ∃ w, (ring n).Coupled u w ∧ ringHops n w v + 1 = ringHops n u v := by
  simp only [coupled_ring_iff]
  obtain ⟨hzero, hlast⟩ := ringHops_ends hv
  rcases Nat.lt_or_gt_of_ne hne with hlt | hgt
  · rw [ringHops_of_le hlt.le]
    by_cases hdirect : v - u ≤ n - (v - u)
    · exact ⟨u + 1, by omega, by rw [ringHops_of_le hlt]; omega⟩
    · rcases Nat.eq_zero_or_pos u with rfl | hpos
      · exact ⟨n - 1, by omega, by omega⟩
      · exact ⟨u - 1, by omega, by rw [ringHops_of_le (by omega)]; omega⟩
  · rw [ringHops_of_ge hgt.le]
    by_cases hdirect : u - v ≤ n - (u - v)
    · exact ⟨u - 1, by omega, by rw [ringHops_of_ge (by omega)]; omega⟩
    · by_cases hend : u + 1 < n
      · exact ⟨u + 1, by omega, by rw [ringHops_of_ge (by omega)]; omega⟩
      · exact ⟨0, by omega, by omega⟩

theorem gauge_ring (hv : v < n) : (ring n).Gauge v fun x => ringHops n x v where
  goal_lt := hv
  goal := by simp [ringHops]
  only x hx h := by
    have hx : x < n := hx
    simp only [ringHops, Nat.dist] at h
    omega
  slow x y h := by
    obtain ⟨hzero, hlast⟩ := ringHops_ends hv
    rw [coupled_ring_iff] at h
    rcases h with (⟨rfl, hy⟩ | ⟨-, rfl, rfl⟩) | (⟨rfl, hx⟩ | ⟨-, rfl, rfl⟩)
    · exact (ringHops_succ hy hv).1
    · simp only [hzero, hlast]
      omega
    · exact (ringHops_succ hx hv).2
    · simp only [hzero, hlast]
      omega
  falls x hx hne := by
    refine exists_ring_closer hx hv ?_
    rintro rfl
    exact hne (by simp [ringHops])

/-! ## Stars -/

theorem coupled_star_iff :
    (star n).Coupled u v ↔ (u = 0 ∧ 0 < v ∧ v < n) ∨ (v = 0 ∧ 0 < u ∧ u < n) := by
  rw [Coupled, star, mem_edges_single, mem_edges_single, mem_starEdges_iff, mem_starEdges_iff]

/-- The hops between two qubits of a star: all ways lead through qubit 0. -/
def starHops (u v : Nat) : Nat := if u = v then 0 else if ¬ (u = 0 ↔ v = 0) then 1 else 2

theorem gauge_star (hv : v < n) : (star n).Gauge v fun x => starHops x v where
  goal_lt := hv
  goal := if_pos rfl
  only x _ h := by
    unfold starHops at h
    split_ifs at h with heq
    exact heq
  slow x y h := by
    rw [coupled_star_iff] at h
    simp only [starHops]
    split_ifs <;> omega
  falls x hx hne := by
    have hx : x < n := hx
    have hxv : x ≠ v := fun heq => hne (if_pos heq)
    simp only [coupled_star_iff]
    by_cases hzero : x = 0
    · -- from the centre straight to the goal
      refine ⟨v, by omega, ?_⟩
      simp [starHops, hzero, show v ≠ 0 by omega, show 0 ≠ v by omega]
    · refine ⟨0, by omega, ?_⟩
      by_cases hgoal : v = 0
      · simp [starHops, hzero, hgoal]
      · simp [starHops, hzero, hgoal, hxv, Ne.symm hgoal]

end Families

/-! ## All families -/

/-- **Chains, rings and stars have their shapes at every size.** The hops between two qubits are
their difference on a chain and the shorter way round on a ring; on a star they are one to and from
qubit 0 and two between the others. Devices of all three families are connected, and each of their
couplings is native in exactly one direction. -/
theorem families_have_shape (n : Nat) :
    (∀ i j, i < n → j < n →
      (linear n).cell? i j = some (Nat.dist i j) ∧
      (ring n).cell? i j = some (min (Nat.dist i j) (n - Nat.dist i j)) ∧
      (star n).cell? i j = some (if i = j then 0 else if ¬ (i = 0 ↔ j = 0) then 1 else 2)) ∧
    ∀ d ∈ [linear n, ring n, star n], d.size = n ∧ d.isConnected = true ∧
      ∀ u v, d.isAdjacent u v = true → (d.hasEdge u v = true ↔ ¬ d.hasEdge v u = true) := by
  refine ⟨fun i j hi hj => ?_, ?_⟩
  · exact ⟨(gauge_linear hj).cell?_eq hi, (gauge_ring hj).cell?_eq hi,
      (gauge_star hj).cell?_eq hi⟩
  · simp only [isAdjacent_iff, hasEdge_iff, List.forall_mem_cons, List.not_mem_nil,
      IsEmpty.forall_iff, implies_true, and_true]
    refine ⟨⟨rfl, isConnected_of_gauges fun _ hv => gauge_linear hv, ?_⟩,
      ⟨rfl, isConnected_of_gauges fun _ hv => gauge_ring hv, ?_⟩,
      ⟨rfl, isConnected_of_gauges fun _ hv => gauge_star hv, ?_⟩⟩
    · intro u v h
      rw [coupled_linear_iff] at h
      rw [linear, mem_edges_single, mem_edges_single, mem_chainEdges_iff, mem_chainEdges_iff]
      omega
    · -- on two qubits the closing edge would be the other direction of the first one
      intro u v h
      rw [coupled_ring_iff] at h
      rw [ring, mem_edges_single, mem_edges_single, mem_ringEdges_iff, mem_ringEdges_iff]
      omega
    · intro u v h
      rw [coupled_star_iff] at h
      rw [star, mem_edges_single, mem_edges_single, mem_starEdges_iff, mem_starEdges_iff]
      omega

/-- Six qubits: the ends of the chain are one hop apart on the ring, through the closing edge, and
two on the star. On two qubits the ring is the chain, with a single edge. -/
theorem families_have_shape_six :
    (0 < 6 ∧ 5 < 6 ∧ 1 < 6) ∧
    (linear 6).cell? 0 5 = some 5 ∧ (ring 6).cell? 0 5 = some 1 ∧
    (ring 6).cell? 1 5 = some 2 ∧ (star 6).cell? 0 5 = some 1 ∧ (star 6).cell? 1 5 = some 2 ∧
    (ring 6).isConnected = true ∧
    (ring 6).isAdjacent 5 0 = true ∧ (ring 6).hasEdge 5 0 = true ∧ (ring 6).hasEdge 0 5 = false ∧
    (ring 2).cell? 1 0 = some 1 ∧ (ring 2).isAdjacent 0 1 = true ∧
    (ring 2).hasEdge 0 1 = true ∧ (ring 2).hasEdge 1 0 = false := by
  obtain ⟨hsix, hdevices⟩ := families_have_shape 6
  obtain ⟨htwo, hdevices₂⟩ := families_have_shape 2
  obtain ⟨hlinear, hring, hstar⟩ := hsix 0 5 (by decide) (by decide)
  obtain ⟨-, hring', hstar'⟩ := hsix 1 5 (by decide) (by decide)
  obtain ⟨-, hring₂, -⟩ := htwo 1 0 (by decide) (by decide)
  obtain ⟨-, hconnected, honce⟩ := hdevices (ring 6) (by simp)
  obtain ⟨-, -, honce₂⟩ := hdevices₂ (ring 2) (by simp)
  have hclosing : (ring 6).isAdjacent 5 0 = true := by
    rw [isAdjacent_iff, coupled_ring_iff]
    decide
  have hedge : (ring 6).hasEdge 5 0 = true := by
    rw [hasEdge_iff, ring, mem_edges_single]
    decide
  have hpair : (ring 2).isAdjacent 0 1 = true := by
    rw [isAdjacent_iff, coupled_ring_iff]
    decide
  have hedge₂ : (ring 2).hasEdge 0 1 = true := by
    rw [hasEdge_iff, ring, mem_edges_single]
    decide
  exact ⟨by decide, hlinear, hring, hring', hstar, hstar', hconnected, hclosing, hedge,
    Bool.eq_false_iff.2 ((honce 5 0 hclosing).1 hedge), hring₂, hpair, hedge₂,
    Bool.eq_false_iff.2 ((honce₂ 0 1 hpair).1 hedge₂)⟩

end QubitAllocation.Device
