import QubitAllocation.Proofs.Exact.Sharing
import QubitAllocation.Proofs.TokenReach

/-!
# Connected devices always have a solution

On a device every arrangement of the tokens can be reached from every other one as far as the
components allow (`SwapTable.Serves.find_ok_iff_linked`). If the device is connected they allow
everything: every move of the dynamic programme has a price (`exists_movePrice`), and every pair of
distinct qubits has a stop at which its gate can be run, since the control is coupled with something
(`exists_stopPrice`). So some sequence of stops meets any list of pairs (`exists_priced`), and the
only refusal left is that of a cost that is too large (`solve_of_connected`).
-/

set_option autoImplicit false

namespace QubitAllocation

open Arrangement Outcome Search

/-- A qubit that is linked with another one is coupled with some qubit. -/
theorem Device.Linked.exists_coupled {d : Device} {u v : Nat} (h : d.Linked u v) (hne : u ≠ v) :
    ∃ w, d.Coupled u w := by
  obtain ⟨k, hwalk⟩ := h
  cases k with
  | zero => exact absurd (walk_zero_iff.1 hwalk) hne
  | succ k =>
    obtain ⟨w, hw, -⟩ := walk_succ_iff_head.1 hwalk
    exact ⟨w, d.mem_neighbours_iff.1 hw⟩

namespace Exact

section Connected

variable {d : Device} {t : SwapTable} {deps : Dependencies}

/-- A gate between coupled qubits has a price, along the edge or against it. -/
theorem exists_gatePrice_of_coupled (costs : CostModel) {u v : Nat} (h : d.Coupled u v) :
    ∃ g, gatePrice? d d.hopTables costs u v = some g := by
  unfold gatePrice?
  by_cases huv : d.hasEdge u v = true
  · rw [if_pos huv]
    exact ⟨0, rfl⟩
  · -- the coupling is not along this edge, so it is along the other one
    have hvu : d.hasEdge v u = true := d.hasEdge_iff.2 (h.resolve_left (mt d.hasEdge_iff.2 huv))
    rw [if_neg huv, if_pos hvu]
    exact ⟨costs.reverse, rfl⟩

/-- Every pair has a stop: the control stays where it is and the target goes next to it. -/
theorem exists_stopPrice (costs : CostModel) (hconn : d.Connected) {p : Pair}
    (hcontrol : p.control < d.size) (htarget : p.target < d.size) (hne : p.control ≠ p.target) :
    ∃ stop ∈ stops d.size, ∃ g, stopPrice? d d.hopTables costs p stop = some g := by
  obtain ⟨w, hw⟩ := (hconn _ _ hcontrol htarget).exists_coupled hne
  -- exchanging the target with what is on `w` leaves the control alone
  have hid := isArrangement_identity d.size
  have hlen := hid.length_eq
  have hM : IsArrangement d.size (exchange (identity d.size) p.target w) := hid.exchange _ _
  have hplace := getElem?_exchange (M := identity d.size) (hlen ▸ htarget) (hlen ▸ hw.lt.2)
  have hu : (exchange (identity d.size) p.target w)[p.control]? = some p.control := by
    rw [hplace, Equiv.swap_apply_of_ne_of_ne hne hw.ne]
    simp [identity, hcontrol]
  have hv : (exchange (identity d.size) p.target w)[p.target]? = some w := by
    rw [hplace, Equiv.swap_apply_left]
    simp [identity, hw.lt.2]
  obtain ⟨g, hg⟩ := exists_gatePrice_of_coupled costs hw
  refine ⟨stopAt _, stopAt_mem_stops hM, g, ?_⟩
  rw [stopPrice?, stopAt, hu, hv]
  exact hg

/-- Every move has a price. -/
theorem exists_movePrice (costs : CostModel) (hs : t.Serves d) (hconn : d.Connected)
    {source target : Stop} (hsource : source ∈ stops d.size) (htarget : target ∈ stops d.size) :
    ∃ m, movePrice? t costs source target = some m := by
  have hS := isArrangement_assignment hsource
  have hT := isArrangement_assignment htarget
  -- all places are linked, so those of a token are
  obtain ⟨k, hwalk⟩ := (Device.swapWalk_iff_linked hS hT).2
    fun token i j hi hj => hconn i j (hS.place_lt hi) (hT.place_lt hj)
  obtain ⟨j, -, hj⟩ := hwalk.exists_isDepth
  exact ⟨j * costs.swap, (movePrice_iff hs hsource htarget).2 ⟨j, hj, rfl⟩⟩

/-- **Some sequence of stops meets any pairs.** -/
theorem exists_priced (costs : CostModel) (hs : t.Serves d) (hconn : d.Connected)
    {pairs : List Pair} (hne : pairs ≠ [])
    (hpairs : ∀ p ∈ pairs, p.control < d.size ∧ p.target < d.size ∧ p.control ≠ p.target) :
    ∃ route c, Priced d costs t pairs route c := by
  -- the pairs are listed latest first, so the induction adds the last stop of all
  induction pairs with
  | nil => exact absurd rfl hne
  | cons p ps ih =>
    rw [List.forall_mem_cons] at hpairs
    obtain ⟨⟨hcontrol, htarget, hpne⟩, hps⟩ := hpairs
    obtain ⟨stop, hstop, g, hg⟩ := exists_stopPrice costs hconn hcontrol htarget hpne
    by_cases hnil : ps = []
    · subst hnil
      exact ⟨[stop], g, .first hstop hg⟩
    · obtain ⟨route, c, hpriced⟩ := ih hnil hps
      obtain ⟨last, earlier, rfl⟩ := hpriced.exists_last
      have hlast := hpriced.mem_stops last List.mem_cons_self
      obtain ⟨m, hm⟩ := exists_movePrice costs hs hconn hlast hstop
      exact ⟨_, _, .next hpriced hstop hm hg⟩

/-- On a connected device the dependencies have a solution, unless its cost is too large. -/
theorem solve_of_connected (costs : CostModel) (hconn : d.Connected)
    (hsize : d.size ≤ SwapTable.maxSize) (hvalid : deps.validate d.size = .ok ()) :
    (∃ s, solve d costs none deps = .ok s) ∨
      ∃ k, 2 ^ 32 ≤ k ∧ solve d costs none deps = .error (.costOverflow k) := by
  by_cases hne : deps = []
  · subst hne
    exact Or.inl ⟨_, rfl⟩
  · obtain ⟨pairs, hpairs⟩ := Dependencies.exists_pairs (Dependencies.single_of_validate hvalid)
    have hbounds := Dependencies.bounds_of_validate hvalid hpairs
    have hpne := Dependencies.pairs_ne_nil hpairs hne
    obtain ⟨t, htable, hs⟩ := exists_ownTable (Dependencies.pos_of_validate hvalid hne) hsize
    obtain ⟨route, c, hpriced⟩ := exists_priced costs hs hconn (List.reverse_ne_nil_iff.2 hpne)
      fun p hp => hbounds p (List.mem_reverse.1 hp)
    rcases solve_of_priced hs hvalid hne htable hpairs hpriced with
      ⟨s, hsolve, -⟩ | ⟨k, hlarge, -, hsolve⟩
    · exact Or.inl ⟨s, hsolve⟩
    · exact Or.inr ⟨k, hlarge, hsolve⟩

end Connected

end Exact

/-- **Tokens move exactly within the components of a device.** On a device of one to nine qubits a
swap table can be set up, and it finds swaps between two arrangements exactly if every token's
places in them are linked. So on a connected device it never finds an arrangement out of reach, and
the dynamic programme never misses a solution of valid dependencies: it is answered unless the cost
is too large. -/
theorem Device.tokens_move_within_components {d : Device} (hpos : 1 ≤ d.size) (hsize : d.size ≤ 9) :
    (∃ t, SwapTable.SetUpFor d t) ∧
    (∀ t, SwapTable.SetUpFor d t → ∀ S T, IsArrangement d.size S → IsArrangement d.size T →
      ((∃ swaps, t.find S T = .ok swaps) ↔
        ∀ token i j, S[i]? = some token → T[j]? = some token → d.Linked i j)) ∧
    (d.Connected →
      (∀ t, SwapTable.SetUpFor d t → ∀ S T values,
        t.find S T ≠ .error (.permutationUnreachable values)) ∧
      ∀ costs shared deps, Exact.Suits d shared → deps.validate d.size = .ok () →
        (∀ k, Exact.solve d costs shared deps ≠ .error (.noSolution k)) ∧
        ((∃ s, Exact.solve d costs shared deps = .ok s) ∨
          ∃ k, 2 ^ 32 ≤ k ∧ Exact.solve d costs shared deps = .error (.costOverflow k))) := by
  refine ⟨?_, fun t ht S T hS hT => ht.serves.find_ok_iff_linked hS hT, fun hconn => ⟨?_, ?_⟩⟩
  · obtain ⟨t, ht⟩ := SwapTable.exists_build_iff.2 ⟨hpos, hsize⟩
    exact ⟨t, .built ht⟩
  · intro t ht S T values
    exact ht.serves.find_ne_unreachable hconn values
  · intro costs shared deps hsuits hvalid
    rcases Exact.solve_of_connected costs hconn hsize hvalid with ⟨s, hs⟩ | ⟨k, hk, herror⟩
    · obtain ⟨s', hs', -⟩ := hsuits.exists_ok hs
      rw [hs']
      exact ⟨fun k h => (by cases h), Or.inl ⟨s', rfl⟩⟩
    · rw [hsuits.error_iff.2 herror]
      exact ⟨fun k h => (by cases h), Or.inr ⟨k, hk, rfl⟩⟩

/-- On four qubits of which the last stands alone, the other three tokens can be turned around and
the last one cannot be moved; on the first three qubits nothing is out of reach. -/
theorem Device.tokens_move_within_components_alone :
    let d := Device.ofNodup 4 [(0, 1), (2, 1)] (by decide) (by decide)
    let path := Device.ofNodup 3 [(0, 1), (2, 1)] (by decide) (by decide)
    let deps : Dependencies := [⟨0, [⟨0, 1⟩]⟩, ⟨1, [⟨0, 2⟩]⟩, ⟨2, [⟨1, 2⟩]⟩]
    1 ≤ d.size ∧ d.size ≤ 9 ∧
      (∃ t, SwapTable.SetUpFor d t ∧ (∃ swaps, t.find [2, 1, 0, 3] [0, 1, 2, 3] = .ok swaps) ∧
        ¬ ∃ swaps, t.find [0, 1, 2, 3] [3, 1, 2, 0] = .ok swaps) ∧
      path.Connected ∧ deps.validate path.size = .ok () ∧
      ∀ k, Exact.solve path .standard none deps ≠ .error (.noSolution k) := by
  intro d path deps
  have hconn : path.Connected := connected_of_isConnected (by decide +kernel)
  have hvalid : deps.validate path.size = .ok () := rfl
  have h₀₁ : d.Linked 0 1 := ⟨1, .step .refl (by decide +kernel)⟩
  have h₁₂ : d.Linked 1 2 := ⟨1, .step .refl (by decide +kernel)⟩
  have h₀₂ := h₀₁.trans h₁₂
  obtain ⟨⟨t, ht⟩, hfind, -⟩ :=
    tokens_move_within_components (d := d) (by decide) (by decide)
  have hpath := tokens_move_within_components (d := path) (by decide) (by decide)
  have hsolve := (hpath.2.2 hconn).2 .standard none deps (Exact.suits_none path) hvalid
  have harr : ∀ {S : List Nat}, isPermutation S = true → S.length = 4 → IsArrangement 4 S :=
    fun hS hlen => hlen ▸ isPermutation_iff.1 hS
  have hfour := harr (S := [0, 1, 2, 3]) (by decide) rfl
  refine ⟨by decide, by decide, ⟨t, ht, ?_, ?_⟩, hconn, hvalid, hsolve.1⟩
  · refine (hfind t ht [2, 1, 0, 3] [0, 1, 2, 3] (harr (by decide) rfl) hfour).2 ?_
    -- the tokens of the first and the third qubit change places, the others stay
    intro token i j hi hj
    have hi' : i < 4 := (List.getElem?_eq_some_iff.1 hi).1
    have hj' : j < 4 := (List.getElem?_eq_some_iff.1 hj).1
    have hplaces : ∀ i < 4, ∀ j < 4, [2, 1, 0, 3][i]? = [0, 1, 2, 3][j]? →
        i = 0 ∧ j = 2 ∨ i = 2 ∧ j = 0 ∨ i = j := by decide
    rcases hplaces i hi' j hj' (hi.trans hj.symm) with ⟨rfl, rfl⟩ | ⟨rfl, rfl⟩ | rfl
    · exact h₀₂
    · exact h₀₂.symm
    · exact ⟨0, .refl⟩
  · -- the last qubit would have to be linked with the first, but it is coupled with none
    intro hswaps
    have hlinked := (hfind t ht [0, 1, 2, 3] [3, 1, 2, 0] hfour (harr (by decide) rfl)).1 hswaps
    obtain ⟨w, hw⟩ := (hlinked 3 3 0 rfl rfl).exists_coupled (by decide)
    simp [d, Device.Coupled, Device.ofNodup] at hw

end QubitAllocation
