import QubitAllocation.Proofs.TokenQuery
import Mathlib.GroupTheory.Perm.ClosureSwap

/-!
# Tokens move within the components of a device

The swaps along the couplings of a device generate a group of permutations of its qubits,
`Device.swapGroup`. What a list of swaps does to an arrangement is what one member of the group does
to its places (`Device.exists_reads_of_walk`, `Device.exists_walk_of_reads`), and the orbits of the
group are the components of the device (`Device.exists_mem_swapGroup_iff`).

A group that transpositions generate holds every permutation of finite support that keeps its
orbits. So swaps lead from one arrangement to another exactly if every token stays in its component
(`Device.swapWalk_iff_linked`), and a table that serves the device finds them then
(`SwapTable.Serves.find_ok_iff_linked`).
-/

set_option autoImplicit false

namespace QubitAllocation

open Arrangement Search

/-! ## Arrangements as permutations of all numbers -/

namespace Arrangement

variable {n : Nat} {M : List Nat}

/-- The permutation that takes the places of an arrangement to its entries and leaves the numbers
beyond its end alone. -/
def IsArrangement.toPerm (h : IsArrangement n M) : Equiv.Perm Nat where
  toFun i := (M[i]?).getD i
  invFun v := ((Arrangement.inverse M)[v]?).getD v
  left_inv i := by
    cases hi : M[i]? with
    | some v => simp [hi, (getElem?_inverse_iff h).2 hi]
    | none =>
      have hlen : M.length ≤ i := List.getElem?_eq_none_iff.1 hi
      simp [length_inverse, hlen]
  right_inv v := by
    cases hv : (Arrangement.inverse M)[v]? with
    | some i => simp [hv, (getElem?_inverse_iff h).1 hv]
    | none =>
      have hlen : M.length ≤ v := by simpa [length_inverse] using hv
      simp [hv, hlen]

theorem IsArrangement.toPerm_apply (h : IsArrangement n M) {i v : Nat} (hi : M[i]? = some v) :
    h.toPerm i = v := by
  simp [toPerm, hi]

theorem IsArrangement.toPerm_apply_of_le (h : IsArrangement n M) {i : Nat} (hi : n ≤ i) :
    h.toPerm i = i := by
  have hlen : M.length ≤ i := h.length_eq ▸ hi
  simp [toPerm, hlen]

end Arrangement

namespace Device

variable {d : Device} {u v : Nat} {S T : List Nat}

/-! ## The group of swaps -/

/-- The group generated by the exchanges of two coupled qubits. -/
def swapGroup (d : Device) : Subgroup (Equiv.Perm Nat) :=
  Subgroup.closure {σ | ∃ u v, d.Coupled u v ∧ σ = Equiv.swap u v}

theorem swap_mem_swapGroup (h : d.Coupled u v) : Equiv.swap u v ∈ d.swapGroup :=
  Subgroup.subset_closure ⟨u, v, h, rfl⟩

/-- Exchanging two coupled qubits leaves every qubit in its component. -/
theorem linked_swap (h : d.Coupled u v) (x : Nat) : d.Linked x (Equiv.swap u v x) := by
  have hlink : ∀ {u v}, d.Coupled u v → d.Linked u v := fun h =>
    ⟨1, .step .refl (d.mem_neighbours_iff.2 h)⟩
  rw [Equiv.swap_apply_def]
  split_ifs with hu hv
  · exact hu ▸ hlink h
  · exact hv ▸ hlink h.symm
  · exact ⟨0, .refl⟩

/-- Every member of the group leaves every qubit in its component. -/
theorem linked_of_mem_swapGroup {σ : Equiv.Perm Nat} (h : σ ∈ d.swapGroup) (x : Nat) :
    d.Linked x (σ x) := by
  induction h using Subgroup.closure_induction generalizing x with
  | mem σ hσ =>
    obtain ⟨u, v, huv, rfl⟩ := hσ
    exact linked_swap huv x
  | one => exact ⟨0, .refl⟩
  | mul σ τ _ _ hσ hτ => exact (hτ x).trans (hσ (τ x))
  | inv σ _ hσ => simpa using (hσ (σ⁻¹ x)).symm

/-- **The orbits of the group are the components of the device.** -/
theorem exists_mem_swapGroup_iff : (∃ σ ∈ d.swapGroup, σ u = v) ↔ d.Linked u v := by
  constructor
  · rintro ⟨σ, hσ, rfl⟩
    exact linked_of_mem_swapGroup hσ u
  · rintro ⟨k, hk⟩
    -- each hop of the way is an exchange that takes one end of a coupling to the other
    induction hk with
    | refl => exact ⟨1, one_mem _, rfl⟩
    | @step k y z _ hz ih =>
      obtain ⟨σ, hσ, rfl⟩ := ih
      have hswap := swap_mem_swapGroup (d.mem_neighbours_iff.1 hz)
      refine ⟨_, mul_mem hswap hσ, ?_⟩
      rw [Equiv.Perm.mul_apply, Equiv.swap_apply_left]

/-- The group holds every permutation of the device's qubits that leaves them in their components. -/
theorem mem_swapGroup_of_linked {σ : Equiv.Perm Nat} (hbeyond : ∀ j, d.size ≤ j → σ j = j)
    (hlinked : ∀ j, j < d.size → d.Linked j (σ j)) : σ ∈ d.swapGroup := by
  refine (mem_closure_isSwap ?_).2 ⟨?_, fun j => ?_⟩
  · rintro _ ⟨u, v, huv, rfl⟩
    exact ⟨u, v, huv.ne, rfl⟩
  · -- only the qubits of the device are moved, and these are finitely many
    refine (Set.finite_lt_nat d.size).subset fun j hj => ?_
    by_contra hge
    exact hj (hbeyond j (Nat.not_lt.1 hge))
  · have hlink : d.Linked j (σ j) := by
      rcases Nat.lt_or_ge j d.size with hj | hj
      · exact hlinked j hj
      · rw [hbeyond j hj]
        exact ⟨0, .refl⟩
    obtain ⟨τ, hτ, heq⟩ := exists_mem_swapGroup_iff.2 hlink
    exact ⟨⟨τ, hτ⟩, heq⟩

/-! ## Swap walks and members of the group -/

/-- The second list has at each place what the first has at the place that the permutation gives. -/
def Reads (S : List Nat) (σ : Equiv.Perm Nat) (T : List Nat) : Prop := ∀ i : Nat, T[i]? = S[σ i]?

/-- An exchange in the second list is one more factor. -/
theorem Reads.exchange {σ : Equiv.Perm Nat} (h : Reads S σ T) (hu : u < T.length)
    (hv : v < T.length) : Reads S (σ * Equiv.swap u v) (exchange T u v) := by
  intro i
  rw [getElem?_exchange hu hv, h, Equiv.Perm.mul_apply]

/-- A swap walk reads its start at the places that some member of the group gives. -/
theorem exists_reads_of_walk {k : Nat} (hS : IsArrangement d.size S)
    (h : Walk d.swapNext S k T) : ∃ σ ∈ d.swapGroup, Reads S σ T := by
  induction h with
  | refl => exact ⟨1, one_mem _, fun i => rfl⟩
  | @step k M N hM hN ih =>
    obtain ⟨σ, hσ, hreads⟩ := ih
    have hlen := (isArrangement_of_swapWalk hS hM).length_eq
    obtain ⟨u, v, huv, rfl⟩ := (mem_swapNext_iff hlen).1 hN
    have hread' := hreads.exchange (hlen ▸ huv.lt.1) (hlen ▸ huv.lt.2)
    exact ⟨σ * Equiv.swap u v, mul_mem hσ (swap_mem_swapGroup huv), hread'⟩

/-- What the last factor of a product does is done by the last swap of a walk. -/
theorem exists_walk_of_reads_mul_swap {σ : Equiv.Perm Nat} (huv : d.Coupled u v)
    (hwalk : ∀ {N}, N.length = d.size → Reads S σ N → ∃ k, Walk d.swapNext S k N)
    (hT : T.length = d.size) (hreads : Reads S (σ * Equiv.swap u v) T) :
    ∃ k, Walk d.swapNext S k T := by
  have hu : u < T.length := hT ▸ huv.lt.1
  have hv : v < T.length := hT ▸ huv.lt.2
  -- undoing the swap leaves what the other factors do
  have hundone := hreads.exchange hu hv
  rw [mul_assoc, Equiv.swap_mul_self, mul_one] at hundone
  obtain ⟨k, hk⟩ := hwalk (by simpa) hundone
  refine ⟨k + 1, .step hk ((mem_swapNext_iff (by simpa)).2 ⟨u, v, huv, ?_⟩)⟩
  exact (exchange_exchange hu hv).symm

/-- What a member of the group does to the places of a list is done by a swap walk. -/
theorem exists_walk_of_reads {σ : Equiv.Perm Nat} (h : σ ∈ d.swapGroup) (hT : T.length = d.size)
    (hreads : Reads S σ T) : ∃ k, Walk d.swapNext S k T := by
  induction h using Subgroup.closure_induction_right generalizing T with
  | one =>
    obtain rfl : T = S := List.ext_getElem? hreads
    exact ⟨0, .refl⟩
  | mul_right τ _ σ hσ ih =>
    obtain ⟨u, v, huv, rfl⟩ := hσ
    exact exists_walk_of_reads_mul_swap huv ih hT hreads
  | mul_inv_cancel τ _ σ hσ ih =>
    obtain ⟨u, v, huv, rfl⟩ := hσ
    rw [Equiv.swap_inv] at hreads
    exact exists_walk_of_reads_mul_swap huv ih hT hreads

/-- Any two arrangements differ by a permutation of their places. -/
theorem reads_relabel (hS : IsArrangement d.size S) (hT : IsArrangement d.size T) :
    Reads S (SwapTable.isArrangement_relabel hS hT).toPerm T := by
  intro j
  rcases Nat.lt_or_ge j d.size with hj | hj
  · obtain ⟨token, htoken⟩ := hT.exists_entry hj
    have hmem : token ∈ S := hS.mem_iff.2 (hT.entry_lt htoken)
    have hplace : (SwapTable.relabel S T)[j]? = some (S.idxOf token) := by
      simp [SwapTable.relabel, htoken]
    rw [IsArrangement.toPerm_apply _ hplace, htoken]
    simp [List.idxOf_lt_length_of_mem hmem]
  · simp [IsArrangement.toPerm_apply_of_le _ hj, hS.length_eq, hT.length_eq, hj]

/-- **Swaps lead from one arrangement to another exactly if every token stays in its component.** -/
theorem swapWalk_iff_linked (hS : IsArrangement d.size S) (hT : IsArrangement d.size T) :
    (∃ k, Walk d.swapNext S k T) ↔
      ∀ token i j, S[i]? = some token → T[j]? = some token → d.Linked i j := by
  constructor
  · rintro ⟨k, hk⟩ token i j hi hj
    obtain ⟨σ, hσ, hreads⟩ := exists_reads_of_walk hS hk
    rw [hreads j] at hj
    obtain rfl : i = σ j := hS.place_unique hi hj
    exact (linked_of_mem_swapGroup hσ j).symm
  · intro hlinked
    have hreads := reads_relabel hS hT
    refine exists_walk_of_reads (mem_swapGroup_of_linked ?_ fun j hj => ?_) hT.length_eq hreads
    · exact fun j hj => IsArrangement.toPerm_apply_of_le _ hj
    · -- the token at the place `j` of `T` is at the place `σ j` of `S`
      obtain ⟨token, htoken⟩ := hT.exists_entry hj
      exact (hlinked token _ j ((hreads j).symm.trans htoken) htoken).symm

end Device

/-! ## Queries -/

namespace SwapTable.Serves

variable {t : SwapTable} {d : Device} {S T : List Nat}

/-- Swaps are found exactly if some lead from the one arrangement to the other. -/
theorem find_ok_iff (h : t.Serves d) (hS : IsArrangement d.size S) (hT : IsArrangement d.size T) :
    (∃ swaps, t.find S T = .ok swaps) ↔ ∃ k, Walk d.swapNext S k T := by
  constructor
  · rintro ⟨swaps, hswaps⟩
    by_contra hnone
    rw [not_exists] at hnone
    rw [(h.unreachable hS hT hnone).1] at hswaps
    cases hswaps
  · rintro ⟨k, hk⟩
    obtain ⟨j, -, hj⟩ := hk.exists_isDepth
    obtain ⟨swaps, hswaps, -⟩ := h.find_of_isDepth hS hT hj
    exact ⟨swaps, hswaps⟩

/-- **Swaps are found exactly if every token stays in its component.** -/
theorem find_ok_iff_linked (h : t.Serves d) (hS : IsArrangement d.size S)
    (hT : IsArrangement d.size T) :
    (∃ swaps, t.find S T = .ok swaps) ↔
      ∀ token i j, S[i]? = some token → T[j]? = some token → d.Linked i j :=
  (h.find_ok_iff hS hT).trans (Device.swapWalk_iff_linked hS hT)

/-- On a connected device no arrangement is out of reach. -/
theorem find_ne_unreachable (h : t.Serves d) (hconn : d.Connected) (values : List Nat) :
    t.find S T ≠ .error (.permutationUnreachable values) := by
  intro hfind
  by_cases hS : IsArrangement d.size S
  · by_cases hT : IsArrangement d.size T
    · have hlinked : ∀ token i j, S[i]? = some token → T[j]? = some token → d.Linked i j :=
        fun token i j hi hj => hconn i j (hS.place_lt hi) (hT.place_lt hj)
      obtain ⟨swaps, hswaps⟩ := (h.find_ok_iff_linked hS hT).2 hlinked
      rw [hfind] at hswaps
      cases hswaps
    · -- a list that is no arrangement is refused for another reason
      rw [(h.refused.2 hS hT).1, refusal] at hfind
      split_ifs at hfind <;> cases hfind
  · rw [(h.refused.1 hS).1, refusal] at hfind
    split_ifs at hfind <;> cases hfind

end SwapTable.Serves

end QubitAllocation
