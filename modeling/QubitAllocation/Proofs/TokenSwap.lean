import QubitAllocation.Proofs.Rank
import QubitAllocation.Proofs.Route
import QubitAllocation.Token.SwapTable

/-!
# Swap tables hold least numbers of swaps

A step of a swap walk exchanges the tokens of two coupled qubits. `SwapTable.Serves t d` says that
the table `t` answers for the swaps of the device `d`; the table built for a device serves it, and
so does a table built for another device of the same size with the same couplings
(`SwapTable.serves_of_build`). In such a table the entry for two arrangements is the least number of
swaps between them (`SwapTable.Serves.distance_iff`): renaming tokens after their places in the
first arrangement turns walks from it into walks from the identity. The list of swaps that the
origins of the table lead back over is one of that length (`SwapTable.Serves.find_of_isDepth`).
-/

set_option autoImplicit false

namespace QubitAllocation

open Arrangement Search

/-! ## Swap walks -/

namespace Device

variable {d : Device} {n : Nat} {M N : List Nat}

/-- The arrangements one swap away. -/
abbrev swapNext (d : Device) : List Nat → List (List Nat) := SwapTable.successors d.couplings

/-- One swap exchanges the tokens of two coupled qubits. -/
theorem mem_swapNext_iff (h : M.length = d.size) :
    N ∈ d.swapNext M ↔ ∃ u v, d.Coupled u v ∧ N = exchange M u v := by
  rw [swapNext, SwapTable.successors, List.mem_map]
  constructor
  · rintro ⟨⟨u, v⟩, hm, rfl⟩
    exact ⟨u, v, (d.mem_couplings_iff.1 hm).2, rfl⟩
  · rintro ⟨u, v, hc, rfl⟩
    rcases Nat.lt_or_ge u v with huv | huv
    · exact ⟨(u, v), d.mem_couplings_iff.2 ⟨huv, hc⟩, rfl⟩
    · have hne := hc.ne
      refine ⟨(v, u), d.mem_couplings_iff.2 ⟨by omega, hc.symm⟩, ?_⟩
      exact exchange_comm (by rw [h]; exact hc.lt.2) (by rw [h]; exact hc.lt.1)

theorem isArrangement_of_mem_swapNext (hM : IsArrangement n M) (h : N ∈ d.swapNext M) :
    IsArrangement n N := by
  obtain ⟨m, -, rfl⟩ := List.mem_map.1 h
  exact hM.exchange m.1 m.2

/-- Arrangements are numbered by their ranks. -/
theorem swapNumbering (d : Device) :
    Numbering (orders d.size) rank d.swapNext (IsArrangement d.size) where
  closed := isArrangement_of_mem_swapNext
  index_lt := rank_lt_orders
  index_inj := rank_inj

theorem isArrangement_of_swapWalk {k : Nat} (hM : IsArrangement d.size M)
    (h : Walk d.swapNext M k N) : IsArrangement d.size N :=
  h.dom_of_dom (swapNumbering d) hM

/-- Renaming tokens keeps swap walks. -/
theorem swapWalk_map {k : Nat} (f : Nat → Nat) (h : Walk d.swapNext M k N) :
    Walk d.swapNext (M.map f) k (N.map f) := by
  apply h.map
  intro x y hy
  obtain ⟨m, hm, rfl⟩ := List.mem_map.1 hy
  exact List.mem_map.2 ⟨m, hm, (map_exchange f x m.1 m.2).symm⟩

/-- Devices with the same couplings have the same swap walks. -/
theorem swapWalk_congr {d' : Device} {k : Nat} (hM : IsArrangement d'.size M)
    (hsize : d'.size = d.size) (hsame : ∀ u v, d'.Coupled u v ↔ d.Coupled u v)
    (h : Walk d'.swapNext M k N) : Walk d.swapNext M k N := by
  induction h with
  | refl => exact .refl
  | step hy hz ih =>
    have hlen := (isArrangement_of_swapWalk hM hy).length_eq
    obtain ⟨u, v, hc, rfl⟩ := (mem_swapNext_iff hlen).1 hz
    exact .step ih ((mem_swapNext_iff (hlen.trans hsize)).2 ⟨u, v, (hsame u v).1 hc, rfl⟩)

end Device

/-! ## Renaming after the places in an arrangement -/

namespace SwapTable

section Relabel

variable {n : Nat} {S T : List Nat}

theorem relabel_self (hS : IsArrangement n S) : relabel S S = identity n := by
  apply List.ext_getElem
  · rw [relabel, List.length_map, hS.length_eq, identity, List.length_range]
  · intro i h₁ h₂
    have hi : i < S.length := by rwa [relabel, List.length_map] at h₁
    simp only [relabel, List.getElem_map, identity, List.getElem_range]
    exact hS.nodup.idxOf_getElem i hi

/-- Putting the tokens of the first arrangement back for their places undoes the renaming. -/
theorem map_getD_relabel (hS : IsArrangement n S) (hT : IsArrangement n T) :
    (relabel S T).map (S.getD · 0) = T := by
  have hback : ∀ x ∈ T, ((S.getD · 0) ∘ fun token => S.idxOf token) x = x := by
    intro x hx
    have hlt := List.idxOf_lt_length_of_mem (hS.mem_iff.2 (hT.mem_iff.1 hx))
    simp [hlt]
  rw [relabel, List.map_map, List.map_congr_left hback, List.map_id']

theorem map_getD_identity (hS : IsArrangement n S) : (identity n).map (S.getD · 0) = S := by
  rw [← relabel_self hS]
  exact map_getD_relabel hS hS

theorem isArrangement_relabel (hS : IsArrangement n S) (hT : IsArrangement n T) :
    IsArrangement n (relabel S T) := by
  apply hT.map_of_inj
  · intro x hx
    rw [← hS.length_eq]
    exact List.idxOf_lt_length_of_mem (hS.mem_iff.2 hx)
  · intro x hx y _ hxy
    exact (List.idxOf_inj (hS.mem_iff.2 hx)).1 hxy

/-- Swap walks from an arrangement are, renamed, the swap walks from the identity. -/
theorem walk_relabel_iff {d : Device} {k : Nat} (hS : IsArrangement n S)
    (hT : IsArrangement n T) :
    Walk d.swapNext (identity n) k (relabel S T) ↔ Walk d.swapNext S k T := by
  constructor
  · intro h
    have hback := Device.swapWalk_map (S.getD · 0) h
    rwa [map_getD_identity hS, map_getD_relabel hS hT] at hback
  · intro h
    have hrename := Device.swapWalk_map (fun token => S.idxOf token) h
    have hself := relabel_self hS
    rw [relabel] at hself
    rwa [hself] at hrename

theorem map_exchangeAll (f : Nat → Nat) (M : List Nat) (swaps : List (Nat × Nat)) :
    (exchangeAll M swaps).map f = exchangeAll (M.map f) swaps := by
  induction swaps generalizing M with
  | nil => rfl
  | cons m swaps ih =>
    rw [exchangeAll, List.foldl_cons, exchangeAll, List.foldl_cons, ← map_exchange]
    exact ih _

theorem isDepth_relabel_iff {d : Device} {k : Nat} (hS : IsArrangement n S)
    (hT : IsArrangement n T) :
    IsDepth d.swapNext (identity n) k (relabel S T) ↔ IsDepth d.swapNext S k T := by
  simp only [IsDepth, walk_relabel_iff hS hT]

end Relabel

/-! ## Tables -/

/-- The table answers for the swaps of the device. -/
structure Serves (t : SwapTable) (d : Device) : Prop where
  size_eq : t.size = d.size
  entry_iff : ∀ {M}, IsArrangement d.size M → ∀ k,
    t.entry? M = some (some k) ↔ IsDepth d.swapNext (identity d.size) k M
  entry_none_iff : ∀ {M}, IsArrangement d.size M →
    (t.entry? M = some none ↔ ∀ k, ¬ Walk d.swapNext (identity d.size) k M)
  -- the origins of an arrangement are those of as few swaps of coupled qubits that lead to it
  leads_back : ∀ {M k}, IsDepth d.swapNext (identity d.size) k M →
    ∃ swaps, (retrace t.origins k (rank M)).filterMap (fun step => t.moves[step.2]?) = swaps ∧
      swaps.length = k ∧ exchangeAll (identity d.size) swaps = M ∧
      ∀ m ∈ swaps, d.Coupled m.1 m.2

/-- An itinerary of swaps is a list of moves, made one after the other. -/
theorem moves_of_follow {moves : List (Nat × Nat)} {S T k : List Nat}
    (h : follow (successors moves) S k = some T) :
    ∃ swaps, k.filterMap (fun place => moves[place]?) = swaps ∧ swaps.length = k.length ∧
      exchangeAll S swaps = T ∧ ∀ m ∈ swaps, m ∈ moves := by
  induction k generalizing S with
  | nil =>
    cases h
    exact ⟨[], rfl, rfl, rfl, List.forall_mem_nil _⟩
  | cons i k ih =>
    obtain ⟨R, hR, hT⟩ := follow_cons_eq_some_iff.1 h
    rw [successors, List.getElem?_map, Option.map_eq_some_iff] at hR
    obtain ⟨m, hm, rfl⟩ := hR
    obtain ⟨swaps, hswaps, hlen, hend, hall⟩ := ih hT
    refine ⟨m :: swaps, ?_, congrArg (· + 1) hlen, hend, ?_⟩
    · rw [List.filterMap_cons_some hm, hswaps]
    · exact List.forall_mem_cons.2 ⟨List.mem_of_getElem? hm, hall⟩

/-- The table of a device of one to nine qubits is a survey of all arrangements. -/
theorem exists_build {d : Device} (hpos : 0 < d.size) (hmax : d.size ≤ maxSize) :
    ∃ found, run (orders d.size) rank d.swapNext (fun _ => false) (identity d.size) =
        some (false, found) ∧
      build d = .ok ⟨d.size, d.couplings, found.depths, found.origins⟩ ∧
      Surveys (orders d.size) rank d.swapNext (IsArrangement d.size) (identity d.size) found.depths
        found.origins := by
  obtain ⟨found, hrun, hsurveys⟩ := exists_run d.swapNumbering (isArrangement_identity d.size)
  refine ⟨found, hrun, ?_, hsurveys⟩
  have hcells : cells d.size = orders d.size := if_neg hpos.ne'
  rw [build, if_neg (Nat.not_lt.2 hmax), hcells, hrun]

/-- Without qubits there is no cell for the arrangement to start from. -/
theorem build_of_size_eq_zero {d : Device} (h : d.size = 0) : build d = .error .outOfRange := by
  have hstart : start (cells d.size) rank (identity d.size) = none := by rw [h]; rfl
  rw [build, if_neg (by rw [h]; decide), run, hstart]
  rfl

/-- Tables are built for the devices of one to nine qubits. -/
theorem exists_build_iff {d : Device} :
    (∃ t, build d = .ok t) ↔ 0 < d.size ∧ d.size ≤ maxSize := by
  constructor
  · rintro ⟨t, h⟩
    by_contra hsize
    rcases Nat.eq_zero_or_pos d.size with hzero | hpos
    · rw [build_of_size_eq_zero hzero] at h
      cases h
    · rw [build, if_pos (by omega)] at h
      cases h
  · rintro ⟨hpos, hmax⟩
    obtain ⟨found, -, hbuild, -⟩ := exists_build hpos hmax
    exact ⟨_, hbuild⟩

/-- What a test says of the table that is built holds of the table. -/
@[elab_as_elim]
theorem of_build {P : SwapTable → Prop} [DecidablePred P] {t : SwapTable} {d : Device}
    (h : build d = .ok t) (htest : (build d).toOption.all (fun t => decide (P t)) = true) :
    P t := by
  rw [h] at htest
  exact of_decide_eq_true htest

/-- A table built for a device serves every device of its size with its couplings. -/
theorem serves_of_build {t : SwapTable} {d d' : Device} (h : build d' = .ok t)
    (hsize : d'.size = d.size) (hsame : ∀ u v, d'.Coupled u v ↔ d.Coupled u v) :
    t.Serves d := by
  have hwalk : ∀ {M : List Nat} (k : Nat),
      Walk d'.swapNext (identity d'.size) k M ↔ Walk d.swapNext (identity d.size) k M := by
    intro M k
    have hid := isArrangement_identity d'.size
    rw [← hsize]
    refine ⟨Device.swapWalk_congr hid hsize hsame, ?_⟩
    exact Device.swapWalk_congr (hsize ▸ hid) hsize.symm fun u v => (hsame u v).symm
  have hdepth : ∀ {M : List Nat} {k : Nat}, IsDepth d'.swapNext (identity d'.size) k M ↔
      IsDepth d.swapNext (identity d.size) k M := by
    intro M k
    simp only [IsDepth, hwalk]
  obtain ⟨hpos, hmax⟩ := exists_build_iff.1 ⟨t, h⟩
  obtain ⟨found, -, hbuild, hsurveys⟩ := exists_build hpos hmax
  rw [hbuild] at h
  cases h
  constructor
  · exact hsize
  · intro M hM k
    rw [← hdepth]
    exact hsurveys.depth_iff (hsize ▸ hM) k
  · intro M hM
    simp only [← hwalk]
    exact hsurveys.open_iff (hsize ▸ hM)
  · intro M k hk
    rw [← hdepth] at hk
    obtain ⟨places, hlen, hlead, hback⟩ := hsurveys.retrace hk
    obtain ⟨swaps, hswaps, hcount, hend, hall⟩ := moves_of_follow hlead
    refine ⟨swaps, ?_, hcount.trans hlen, hsize ▸ hend, fun m hm => ?_⟩
    · rw [← hswaps, ← hback, List.filterMap_map]
      rfl
    · exact (hsame m.1 m.2).1 (d'.mem_couplings_iff.1 (hall m hm)).2

namespace Serves

variable {t : SwapTable} {d : Device} {S T : List Nat} {k : Nat}

/-- **The table holds the least numbers of swaps** between arrangements. -/
theorem distance_iff (h : t.Serves d) (hS : IsArrangement d.size S) (hT : IsArrangement d.size T) :
    t.distance? S T = some k ↔ IsDepth d.swapNext S k T := by
  rw [distance?, Option.join_eq_some_iff, h.entry_iff (isArrangement_relabel hS hT),
    isDepth_relabel_iff hS hT]

theorem check_eq_ok (h : t.Serves d) (hS : IsArrangement d.size S) : t.check S = .ok () := by
  have hlen : S.length = t.size := hS.length_eq.trans h.size_eq.symm
  have hperm : isPermutation S = true := isPermutation_iff.2 (by rw [hS.length_eq]; exact hS)
  rw [check, if_neg (not_not.2 hlen), if_pos hperm]

theorem swapCount_of_isDepth (h : t.Serves d) (hS : IsArrangement d.size S)
    (hT : IsArrangement d.size T) (hk : IsDepth d.swapNext S k T) : t.swapCount S T = .ok k := by
  have hentry : t.entry? (relabel S T) = some (some k) :=
    (h.entry_iff (isArrangement_relabel hS hT) k).2 ((isDepth_relabel_iff hS hT).2 hk)
  rw [swapCount, h.check_eq_ok hS, h.check_eq_ok hT, hentry]
  rfl

theorem swapCount_eq_ok_iff (h : t.Serves d) (hS : IsArrangement d.size S)
    (hT : IsArrangement d.size T) : t.swapCount S T = .ok k ↔ IsDepth d.swapNext S k T := by
  refine ⟨fun hcount => ?_, h.swapCount_of_isDepth hS hT⟩
  rw [swapCount, h.check_eq_ok hS, h.check_eq_ok hT] at hcount
  rw [← h.distance_iff hS hT, distance?]
  -- a count is an entry of the table; the other entries are refused
  rcases hentry : t.entry? (relabel S T) with - | - | j
  · rw [hentry] at hcount
    cases hcount
  · rw [hentry] at hcount
    cases hcount
  · rw [hentry] at hcount
    cases hcount
    rfl

/-- **A shortest list of swaps is found** between arrangements that swaps link. -/
theorem find_of_isDepth (h : t.Serves d) (hS : IsArrangement d.size S)
    (hT : IsArrangement d.size T) (hk : IsDepth d.swapNext S k T) :
    ∃ swaps, t.find S T = .ok swaps ∧ swaps.length = k ∧ exchangeAll S swaps = T ∧
      ∀ m ∈ swaps, d.Coupled m.1 m.2 := by
  obtain ⟨swaps, hswaps, hlen, hend, hall⟩ := h.leads_back ((isDepth_relabel_iff hS hT).2 hk)
  refine ⟨swaps, ?_, hlen, ?_, hall⟩
  · rw [find, h.swapCount_of_isDepth hS hT hk]
    exact congrArg Except.ok hswaps
  · -- the swaps that lead from the identity to the renamed target lead from `S` to `T`
    have hback := congrArg (List.map (S.getD · 0)) hend
    rwa [map_exchangeAll, map_getD_identity hS, map_getD_relabel hS hT] at hback

end Serves

end SwapTable

end QubitAllocation
