import QubitAllocation.Placement.Basic
import QubitAllocation.Proofs.Arrangement
import QubitAllocation.Proofs.Choice
import QubitAllocation.Proofs.Dependencies

/-!
# Placements place every qubit

Each round of the weighted placement takes one logical qubit from those that are not placed and one
physical qubit from those that are free. So as long as there are as many of the one as of the other,
the keys and the places that are placed in the end are all that there were (`placeAll_perm`), and
the mapping that is read off them is an arrangement, whatever the device is (`exists_find`).
-/

set_option autoImplicit false

namespace QubitAllocation.Placement

open Arrangement Outcome

variable {d : Device} {tables : Array (Array (Option Nat))} {pairs : List Pair}
  {placed : List (Nat × Nat)}

theorem mem_of_nextQubit {unplaced : List Nat} {q : Nat}
    (h : nextQubit? pairs placed unplaced = some q) : q ∈ unplaced := by
  obtain ⟨x, hx, rfl⟩ := Option.map_eq_some_iff.1 h
  obtain ⟨q, hq, rfl⟩ := List.mem_map.1 (mem_of_firstBest hx)
  exact hq

theorem mem_of_bestSite {free : List Nat} {q site : Nat}
    (h : bestSite? d tables pairs placed q free = some site) : site ∈ free := by
  obtain ⟨x, hx, rfl⟩ := Option.map_eq_some_iff.1 h
  obtain ⟨site, hsite, rfl⟩ := List.mem_map.1 (mem_of_firstBest hx)
  exact hsite

theorem exists_nextQubit (pairs : List Pair) (placed : List (Nat × Nat)) {unplaced : List Nat}
    (h : unplaced ≠ []) :
    ∃ q ∈ unplaced, nextQubit? pairs placed unplaced = some q := by
  obtain ⟨x, hx⟩ := exists_firstBest Urgency.beats (mt List.map_eq_nil_iff.1 h)
  have hnext := congrArg (Option.map Urgency.qubit) hx
  exact ⟨x.qubit, mem_of_nextQubit hnext, hnext⟩

theorem exists_bestSite (d : Device) (tables : Array (Array (Option Nat))) (pairs : List Pair)
    (placed : List (Nat × Nat)) (q : Nat) {free : List Nat} (h : free ≠ []) :
    ∃ site ∈ free, bestSite? d tables pairs placed q free = some site := by
  obtain ⟨x, hx⟩ := exists_firstBest Offer.beats (mt List.map_eq_nil_iff.1 h)
  have hbest := congrArg (Option.map Offer.site) hx
  exact ⟨x.site, mem_of_bestSite hbest, hbest⟩

/-- What is placed moves from the one list to the other. -/
theorem move_perm {x : Nat} {xs ys : List Nat} (h : x ∈ ys) :
    (x :: xs ++ ys.erase x).Perm (xs ++ ys) :=
  List.perm_middle.symm.trans ((List.perm_cons_erase h).symm.append_left xs)

/-- **All qubits are placed**, each on a place of its own. -/
theorem placeAll_perm {count : Nat} {unplaced free : List Nat} (hcount : unplaced.length ≤ count)
    (hlen : unplaced.length = free.length) :
    ((placeAll d tables pairs count placed unplaced free).map Prod.fst).Perm
      (placed.map Prod.fst ++ unplaced) ∧
    ((placeAll d tables pairs count placed unplaced free).map Prod.snd).Perm
      (placed.map Prod.snd ++ free) := by
  induction count generalizing placed unplaced free with
  | zero =>
    obtain rfl := List.length_eq_zero_iff.1 (Nat.le_zero.1 hcount)
    obtain rfl := List.length_eq_zero_iff.1 hlen.symm
    rw [placeAll, List.append_nil, List.append_nil]
    exact ⟨.refl _, .refl _⟩
  | succ count ih =>
    by_cases hempty : unplaced = []
    · subst hempty
      obtain rfl := List.length_eq_zero_iff.1 hlen.symm
      rw [List.append_nil, List.append_nil]
      exact ⟨.refl _, .refl _⟩
    · -- both sides lose one, so they stay equally long
      have hfree : free ≠ [] := by
        rw [← List.length_pos_iff, ← hlen]
        exact List.length_pos_iff.2 hempty
      obtain ⟨q, hq, hnext⟩ := exists_nextQubit pairs placed hempty
      obtain ⟨site, hsite, hbest⟩ := exists_bestSite d tables pairs placed q hfree
      rw [placeAll, hnext]
      simp only [hbest]
      have hq' := List.length_erase_of_mem hq
      have hsite' := List.length_erase_of_mem hsite
      obtain ⟨hkeys, hsites⟩ := @ih ((q, site) :: placed) (unplaced.erase q) (free.erase site)
        (by omega) (by omega)
      exact ⟨hkeys.trans (move_perm hq), hsites.trans (move_perm hsite)⟩

/-- The places of the keys of a table, one key after the other. -/
theorem filterMap_lookup_perm {keys : List Nat} (h : (placed.map Prod.fst).Perm keys)
    (hnd : keys.Nodup) : (keys.filterMap fun q => placed.lookup q).Perm (placed.map Prod.snd) := by
  have hnd' : (placed.map Prod.fst).Nodup := h.nodup_iff.2 hnd
  have hown : (placed.map Prod.fst).filterMap (fun q => placed.lookup q) =
      placed.map Prod.snd := by
    rw [List.filterMap_map, ← List.filterMap_eq_map]
    apply List.filterMap_congr
    intro entry hentry
    exact (Dependencies.lookup_eq_some_iff_mem hnd').2 hentry
  rw [← hown]
  exact h.symm.filterMap _

/-- What the weighted placement answers for valid dependencies. -/
theorem weightedMapping_eq {deps : Dependencies} (hvalid : deps.validate d.size = .ok ())
    (hpairs : deps.pairs = .ok pairs) :
    weightedMapping d deps = .ok ((List.range d.size).filterMap fun q =>
      (placeAll d d.hopTables pairs d.size [] (List.range d.size)
        (List.range d.size)).lookup q) := by
  rw [weightedMapping, bind_of_eq_ok hvalid, bind_of_eq_ok hpairs]
  rfl

/-- **A placement is found for all valid dependencies**, and it is an arrangement. -/
theorem exists_find (placement : Placement) (d : Device) {deps : Dependencies}
    (hvalid : deps.validate d.size = .ok ()) :
    ∃ M, placement.find d deps = .ok M ∧ IsArrangement d.size M := by
  cases placement with
  | identity => exact ⟨_, rfl, isArrangement_identity d.size⟩
  | weighted =>
    obtain ⟨pairs, hpairs⟩ := Dependencies.exists_pairs
      (Dependencies.single_of_validate hvalid)
    refine ⟨_, weightedMapping_eq hvalid hpairs, ?_⟩
    obtain ⟨hkeys, hsites⟩ := @placeAll_perm d d.hopTables pairs [] d.size (List.range d.size)
      (List.range d.size) (by rw [List.length_range]) rfl
    exact (filterMap_lookup_perm hkeys List.nodup_range).trans hsites

end QubitAllocation.Placement
