import QubitAllocation.Proofs.Outcome
import QubitAllocation.Proofs.Replay.Tracking
import QubitAllocation.Proofs.Route
import QubitAllocation.Strategy.PathGuided

/-!
# Chains of swaps along a route

`Layout.On route l q` says that the qubit `q` stands on the route. A chain of swaps along hops of a
route can be run, touches only qubits that stand on the route, and moves them along the route, so
the same qubits stand on it afterwards (`of_chain`). Entering the qubits of the route into a mapping
where a layout has them changes the entries of those qubits and no others (`of_fold`).

Both together let the chain be moved into the first mapping when nothing on the route has been used
(`tracks_fold`): the used qubits stay, and the unused ones start where the chain takes them.
-/

set_option autoImplicit false

namespace QubitAllocation

open Arrangement Outcome Replay

/-- The qubit stands on the route. -/
def Layout.On (route : List Nat) (l : Layout) (q : Nat) : Prop :=
  ∃ x ∈ route, l.mapping[q]? = some x

namespace PathGuided

variable {d : Device} {route : List Nat} {l l' : Layout} {hops : List (Nat × Nat)}
  {ops : List Operation}

/-! ## Running the chain -/

/-- The later hops of a route are between coupled qubits of the route. -/
theorem of_mem_laterHops (h : route.IsChain d.Coupled) {hop : Nat × Nat}
    (hhop : hop ∈ laterHops route) :
    d.Coupled hop.1 hop.2 ∧ hop.1 ∈ route ∧ hop.2 ∈ route := by
  have hzip : hop ∈ route.tail.zip route.tail.tail := List.mem_reverse.1 hhop
  obtain ⟨hfst, hsnd⟩ := List.of_mem_zip hzip
  refine ⟨Device.coupled_of_mem_zip_tail h.tail hzip, List.mem_of_mem_tail hfst, ?_⟩
  exact List.mem_of_mem_tail (List.mem_of_mem_tail hsnd)

/-- Exchanging two qubits of the route leaves the same qubits on it. -/
theorem on_exchange_iff {a b : Nat} (hmap : l'.mapping = exchange l.mapping a b)
    (ha : l.On route a) (hb : l.On route b) {q : Nat} : l'.On route q ↔ l.On route q := by
  obtain ⟨x, hx, hax⟩ := ha
  obtain ⟨y, hy, hby⟩ := hb
  have hlt_a := (List.getElem?_eq_some_iff.1 hax).1
  have hlt_b := (List.getElem?_eq_some_iff.1 hby).1
  have hswap : l'.On route q ↔ l.On route (Equiv.swap a b q) := by
    simp only [Layout.On, hmap, getElem?_exchange hlt_a hlt_b]
  rw [hswap, Equiv.swap_apply_def]
  split_ifs with hqa hqb
  · subst hqa
    exact ⟨fun _ => ⟨x, hx, hax⟩, fun _ => ⟨y, hy, hby⟩⟩
  · subst hqb
    exact ⟨fun _ => ⟨y, hy, hby⟩, fun _ => ⟨x, hx, hax⟩⟩
  · exact Iff.rfl

/-- One swap of a chain: along a hop of the route it exchanges two qubits that stand on it. -/
theorem of_chain_cons (hl : l.Consistent d.size) {hop : Nat × Nat}
    (hhop : d.Coupled hop.1 hop.2 ∧ hop.1 ∈ route ∧ hop.2 ∈ route)
    (h : chain d (hop :: hops) l = .ok (ops, l')) :
    ∃ a b moved rest, ops = .swap a b :: rest ∧ chain d hops moved = .ok (rest, l') ∧
      moved.Consistent d.size ∧ moved.mapping = exchange l.mapping a b ∧
      CanRun d l.mapping (.swap a b) ∧ l.On route a ∧ l.On route b := by
  -- the swap is written along its edge, which may turn the hop round
  obtain ⟨⟨u, v⟩, huv⟩ :
    ∃ uv, uv = if d.isReverseEdge hop.1 hop.2 then (hop.2, hop.1) else hop := ⟨_, rfl⟩
  have hends : d.Coupled u v ∧ u ∈ route ∧ v ∈ route := by
    split_ifs at huv
    · cases huv
      exact ⟨hhop.1.symm, hhop.2.2, hhop.2.1⟩
    · subst huv
      exact hhop
  rw [chain, ← huv] at h
  obtain ⟨a, ha, h⟩ := bind_eq_ok_iff.1 h
  obtain ⟨b, hb, h⟩ := bind_eq_ok_iff.1 h
  obtain ⟨moved, hmoved, h⟩ := bind_eq_ok_iff.1 h
  obtain ⟨⟨rest, final⟩, hrest, h⟩ := bind_eq_ok_iff.1 h
  cases h
  rw [lookup_eq_ok_iff] at ha hb hmoved
  have ha' : l.mapping[a]? = some u := hl.assignment_iff.1 ha
  have hb' : l.mapping[b]? = some v := hl.assignment_iff.1 hb
  obtain ⟨l₁, hl₁, hmap, -, hcons⟩ := hl.exchangeLogical ha' hb'
  rw [hl.exchangePhysical_eq ha' hb', hl₁] at hmoved
  cases hmoved
  exact ⟨a, b, _, rest, rfl, hrest, hcons, hmap, canRun_of_allows hl.mapping ha' hb' hends.1,
    ⟨u, hends.2.1, ha'⟩, ⟨v, hends.2.2, hb'⟩⟩

/-- **A chain along hops of a route can be run**, consists of swaps, touches only qubits that stand
on the route, and leaves the same qubits on it. -/
theorem of_chain (hl : l.Consistent d.size)
    (hhops : ∀ hop ∈ hops, d.Coupled hop.1 hop.2 ∧ hop.1 ∈ route ∧ hop.2 ∈ route)
    (h : chain d hops l = .ok (ops, l')) :
    l'.Consistent d.size ∧ Runs d l.mapping ops l'.mapping ∧ (∀ op ∈ ops, op.isSwap = true) ∧
      (∀ op ∈ ops, ∀ q, op.Touches q → l.On route q) ∧ ∀ q, l'.On route q ↔ l.On route q := by
  induction hops generalizing l ops with
  | nil =>
    cases h
    exact ⟨hl, .nil _, List.forall_mem_nil _, List.forall_mem_nil _, fun q => Iff.rfl⟩
  | cons hop hops ih =>
    rw [List.forall_mem_cons] at hhops
    obtain ⟨a, b, moved, rest, rfl, hrest, hmoved, hmap, hcan, ha, hb⟩ :=
      of_chain_cons hl hhops.1 h
    obtain ⟨hl', hruns, hswaps, htouch, hon⟩ := ih hmoved hhops.2 hrest
    have hstay := fun {q} => on_exchange_iff (q := q) hmap ha hb
    refine ⟨hl', .cons hcan ?_, ?_, ?_, fun q => (hon q).trans hstay⟩
    · rw [hmap] at hruns
      exact hruns
    · exact List.forall_mem_cons.2 ⟨rfl, hswaps⟩
    · rw [List.forall_mem_cons]
      refine ⟨?_, fun op hop q hq => hstay.1 (htouch op hop q hq)⟩
      rintro q (rfl | rfl)
      · exact ha
      · exact hb

/-! ## Moving the chain into the first mapping -/

theorem mem_holders_iff (hl : l.Consistent d.size) {held : List Nat}
    (h : holders l route = .ok held) {q : Nat} : q ∈ held ↔ l.On route q := by
  have hforall := mapM_eq_ok_iff.1 h
  constructor
  · intro hq
    obtain ⟨x, hx, hxq⟩ := exists_of_forall₂ hforall hq
    exact ⟨x, hx, hl.assignment_iff.1 (lookup_eq_ok_iff.1 hxq)⟩
  · rintro ⟨x, hx, hqx⟩
    obtain ⟨q', hq', hxq'⟩ := exists_of_forall₂ hforall.flip hx
    have hqx' := hl.assignment_iff.1 (lookup_eq_ok_iff.1 hxq')
    rw [hl.mapping.place_unique hqx hqx']
    exact hq'

/-- The qubits on the route are entered where the layout has them, and the others keep their
places. -/
theorem of_fold {M M' : List Nat} (hl : l.Consistent d.size) (hM : M.length = d.size)
    (h : fold l route M = .ok M') (q : Nat) :
    (l.On route q → M'[q]? = l.mapping[q]?) ∧ (¬ l.On route q → M'[q]? = M[q]?) := by
  unfold fold at h
  induction route generalizing M with
  | nil =>
    rw [foldlM_nil_eq_ok_iff] at h
    rw [h]
    exact ⟨fun ⟨x, hx, _⟩ => absurd hx List.not_mem_nil, fun _ => rfl⟩
  | cons x route ih =>
    obtain ⟨M₁, hset, hrest⟩ := foldlM_cons_eq_ok_iff.1 h
    obtain ⟨a, ha, hset⟩ := bind_eq_ok_iff.1 hset
    cases hset
    have hax : l.mapping[a]? = some x := hl.assignment_iff.1 (lookup_eq_ok_iff.1 ha)
    obtain ⟨hon, hoff⟩ := ih (by rw [List.length_set, hM]) hrest
    by_cases hq : l.On route q
    · refine ⟨fun _ => hon hq, fun hnot => ?_⟩
      obtain ⟨y, hy, hqy⟩ := hq
      exact absurd ⟨y, List.mem_cons_of_mem x hy, hqy⟩ hnot
    · rw [hoff hq]
      constructor
      · -- only the entry just made can have brought the qubit onto the route
        rintro ⟨y, hy, hqy⟩
        obtain rfl : y = x := by
          rcases List.mem_cons.1 hy with rfl | hy
          · rfl
          · exact absurd ⟨y, hy, hqy⟩ hq
        obtain rfl := hl.mapping.place_unique hqy hax
        rw [List.getElem?_set_self (by rw [hM]; exact hl.mapping.place_lt hax), hax]
      · intro hnot
        apply List.getElem?_set_ne
        rintro rfl
        exact hnot ⟨x, List.mem_cons_self, hax⟩

/-- **A chain over unused qubits may be moved into the first mapping.** -/
theorem tracks_fold {M M' used : List Nat} {emitted : List Operation}
    (htracks : Tracks d l M used emitted) (hl' : l'.Consistent d.size)
    (hruns : Runs d l.mapping ops l'.mapping)
    (htouch : ∀ op ∈ ops, ∀ q, op.Touches q → l.On route q)
    (hon : ∀ q, l'.On route q ↔ l.On route q) (hunused : ∀ q, l.On route q → q ∉ used)
    (h : fold l' route M = .ok M') : Tracks d l' M' used emitted := by
  have hfold := of_fold hl' htracks.initial.length_eq h
  have hstay : ∀ q, ¬ l.On route q → l'.mapping[q]? = l.mapping[q]? := fun q hq =>
    hruns.getElem?_of_untouched fun op hop htouched => hq (htouch op hop q htouched)
  apply htracks.rebase hl'
  · intro q hq
    have hoff : ¬ l.On route q := fun h => hunused q h hq
    exact ⟨(hfold q).2 fun h => hoff ((hon q).1 h), hstay q hoff⟩
  · intro q hq
    by_cases hat : l.On route q
    · exact (hfold q).1 ((hon q).2 hat)
    · rw [(hfold q).2 fun h => hat ((hon q).1 h), hstay q hat, htracks.unmoved hq]

end PathGuided

end QubitAllocation
