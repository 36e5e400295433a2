import QubitAllocation.Proofs.Gate
import QubitAllocation.Proofs.Greedy.Tracking
import QubitAllocation.Proofs.Replay.Judgement

/-!
# Fixes do what they cost

A candidate promises that, once its fix is carried out, the qubits of its pair stand on coupled
places and that the swaps and the gate there cost what the candidate says (`works_of_evaluate`). The
four kinds of fix differ in how they get there: two change nothing, one exchanges unused qubits from
the start, and one swaps an operand along a route until it is next to the other. So carrying out the
fix and emitting the gate never fails, keeps the state in step with its operations, and gives swaps
and then one plain or reversed gate at the candidate's cost (`apply_of_works`).

On a connected device every pair has a candidate (`exists_evaluate`).
-/

set_option autoImplicit false

namespace QubitAllocation.Greedy

open QubitAllocation.Outcome Arrangement Replay

/-! ## Swapping along a route -/

section Hops

variable {d : Device} {x w e : Nat} {front : List Nat}

theorem earlierHops_cons {y : Nat} (hy : (front ++ [w]).head? = some y) :
    earlierHops (x :: (front ++ [w, e])) = (x, y) :: earlierHops (front ++ [w, e]) := by
  cases front with
  | nil =>
    cases hy
    rfl
  | cons z front =>
    cases hy
    cases front <;> rfl

theorem length_earlierHops : (earlierHops (front ++ [w, e])).length = front.length := by
  rw [earlierHops, List.length_dropLast, List.length_zip, List.length_tail]
  simp

theorem coupled_of_mem_earlierHops {route : List Nat} (h : route.IsChain d.Coupled)
    {hop : Nat × Nat} (hhop : hop ∈ earlierHops route) : d.Coupled hop.1 hop.2 :=
  Device.coupled_of_mem_zip_tail h (List.mem_of_mem_dropLast hhop)

/-- Exchanging along a route takes what is at its head to the place before its end, and leaves what
is not on the way. -/
theorem getElem?_exchangeAll_earlierHops {A : List Nat} (hlt : ∀ q ∈ front ++ [w], q < A.length)
    (hnd : (front ++ [w]).Nodup) (hx : (front ++ [w]).head? = some x) :
    (exchangeAll A (earlierHops (front ++ [w, e])))[w]? = A[x]? ∧
      ∀ q, q ∉ front ++ [w] → (exchangeAll A (earlierHops (front ++ [w, e])))[q]? = A[q]? := by
  induction front generalizing A x with
  | nil =>
    cases hx
    exact ⟨rfl, fun q _ => rfl⟩
  | cons z front ih =>
    -- the first exchange puts what is at `z` on the next place, from where the rest carries it on
    cases hx
    obtain ⟨y, hy⟩ : ∃ y, (front ++ [w]).head? = some y := by
      cases front <;> exact ⟨_, rfl⟩
    rw [List.cons_append, List.forall_mem_cons] at hlt
    rw [List.cons_append, List.nodup_cons] at hnd
    have hyl : y < A.length := hlt.2 y (List.mem_of_head? hy)
    obtain ⟨hhead, hrest⟩ := @ih y (exchange A z y) (by rw [length_exchange]; exact hlt.2) hnd.2 hy
    rw [List.cons_append, earlierHops_cons hy, exchangeAll, List.foldl_cons]
    constructor
    · refine hhead.trans ?_
      rw [getElem?_exchange hlt.1 hyl, Equiv.swap_apply_right]
    · intro q hq
      rw [List.cons_append, List.mem_cons, not_or] at hq
      refine (hrest q hq.2).trans ?_
      refine getElem?_exchange_of_ne hlt.1 hyl hq.1 ?_
      rintro rfl
      exact hq.2 (List.mem_of_head? hy)

end Hops

section Carry

variable {d : Device} {s : State} {ops : List Operation} {costs : CostModel} {p : Pair}

/-- Swapping along coupled hops can be done and exchanges what the places hold. -/
theorem swapHops_of_coupled (h : s.Tracks d ops) {hops : List (Nat × Nat)}
    (hhops : ∀ hop ∈ hops, d.Coupled hop.1 hop.2) :
    ∃ swaps s', swapHops hops s = .ok (swaps, s') ∧ s'.Tracks d (ops ++ swaps) ∧
      (∀ op ∈ swaps, op.isSwap = true) ∧ swaps.length = hops.length ∧
      s'.layout.assignment = exchangeAll s.layout.assignment hops := by
  induction hops generalizing s ops with
  | nil =>
    refine ⟨[], s, rfl, ?_, List.forall_mem_nil _, rfl, rfl⟩
    rw [List.append_nil]
    exact h
  | cons hop hops ih =>
    obtain ⟨u, v⟩ := hop
    rw [List.forall_mem_cons] at hhops
    obtain ⟨a, hlog_a, ha⟩ := h.layout.exists_logical hhops.1.lt.1
    obtain ⟨b, hlog_b, hb⟩ := h.layout.exists_logical hhops.1.lt.2
    obtain ⟨layout, hlayout, hassign, htracks⟩ := h.swap ha hb hhops.1
    obtain ⟨swaps, s', hswaps, htracks', hall, hlen, hend⟩ := ih htracks hhops.2
    refine ⟨.swap a b :: swaps, s', ?_, ?_, ?_, ?_, ?_⟩
    · simp only [swapHops, hlog_a, hlog_b, hlayout, AllocError.lookup]
      exact bind_eq_ok_iff.2 ⟨a, rfl, bind_eq_ok_iff.2 ⟨b, rfl, bind_eq_ok_iff.2 ⟨layout, rfl,
        bind_eq_ok_iff.2 ⟨(swaps, s'), hswaps, rfl⟩⟩⟩⟩
    · rw [List.append_assoc] at htracks'
      exact htracks'
    · exact List.forall_mem_cons.2 ⟨rfl, hall⟩
    · rw [List.length_cons, List.length_cons, hlen]
    · rw [hend, exchangeAll, exchangeAll, List.foldl_cons, ← hassign]

/-- Along a route, the qubit at its head is brought next to the one at its end. -/
theorem swapHops_of_isRoute (h : s.Tracks d ops) {k y z w a b : Nat} {front : List Nat}
    (hroute : d.IsRoute y z k (front ++ [w, z])) (ha : s.layout.mapping[a]? = some y)
    (hb : s.layout.mapping[b]? = some z) :
    ∃ swaps s', swapHops (earlierHops (front ++ [w, z])) s = .ok (swaps, s') ∧
      s'.Tracks d (ops ++ swaps) ∧ (∀ op ∈ swaps, op.isSwap = true) ∧
      swaps.length = front.length ∧ s'.layout.mapping[a]? = some w ∧
      s'.layout.mapping[b]? = some z := by
  obtain ⟨swaps, s', hswaps, htracks, hall, hlen, hassign⟩ :=
    swapHops_of_coupled h fun hop hhop => coupled_of_mem_earlierHops hroute.linked hhop
  have hsplit : front ++ [w, z] = (front ++ [w]) ++ [z] := by rw [List.append_assoc]; rfl
  have hnd := hroute.nodup
  have hhead := hroute.head_eq
  have hlt := hroute.lt (h.layout.mapping.entry_lt ha)
  rw [hsplit, List.nodup_append] at hnd
  rw [hsplit, List.forall_mem_append] at hlt
  have hhead' : (front ++ [w]).head? = some y := by
    rw [← hhead]
    cases front <;> rfl
  obtain ⟨hmoved, hrest⟩ := getElem?_exchangeAll_earlierHops (e := z)
    (h.layout.length_assignment.symm ▸ hlt.1) hnd.1 hhead'
  refine ⟨swaps, s', hswaps, htracks, hall, hlen.trans length_earlierHops, ?_, ?_⟩
  · rw [← htracks.layout.assignment_iff, hassign, hmoved, h.layout.assignment_iff, ha]
  · rw [← htracks.layout.assignment_iff, hassign, hrest z, h.layout.assignment_iff, hb]
    exact fun hz => hnd.2.2 z hz z List.mem_cons_self rfl

/-! ## Carrying out a fix -/

/-- What a fix does before the gate is emitted. -/
def carry (s : State) : Fix → Except AllocError (List Operation × State)
  | .native | .reversed => .ok ([], s)
  | .relocate mover partner => do
    let layout ← AllocError.lookup (s.layout.exchangeLogical mover partner)
    return ([], { s with layout := layout, initial := exchange s.initial mover partner })
  | .chain route => swapHops (earlierHops route) s

/-- To apply a fix is to carry it out and to emit the gate. -/
theorem apply_eq (d : Device) (s : State) (p : Pair) (fix : Fix) :
    apply d s p fix = do
      let (swaps, moved) ← carry s fix
      let gate ← Gate.adjacent d moved.layout.mapping p
      return (swaps ++ [gate], (moved.use p.control).use p.target) := by
  cases fix with
  | native => rfl
  | reversed => rfl
  | relocate mover partner =>
    rw [apply, carry]
    cases s.layout.exchangeLogical mover partner <;> rfl
  | chain route => rfl

/-- The candidate's fix can be carried out after `ops`: its swaps bring the qubits of the pair onto
coupled places, and the candidate costs as much as the swaps and the gate there. -/
def Candidate.Works (d : Device) (costs : CostModel) (s : State) (ops : List Operation) (p : Pair)
    (candidate : Candidate) : Prop :=
  ∃ swaps moved u v, carry s candidate.fix = .ok (swaps, moved) ∧ moved.Tracks d (ops ++ swaps) ∧
    (∀ op ∈ swaps, op.isSwap = true) ∧ moved.layout.mapping[p.control]? = some u ∧
    moved.layout.mapping[p.target]? = some v ∧ d.Coupled u v ∧
    candidate.cost = swaps.length * costs.swap + directionPrice d costs u v

theorem directionPrice_of_hasEdge {u v : Nat} (h : d.hasEdge u v = true) :
    directionPrice d costs u v = 0 :=
  if_pos h

theorem directionPrice_of_not_hasEdge {u v : Nat} (h : ¬ d.hasEdge u v = true) :
    directionPrice d costs u v = costs.reverse :=
  if_neg h

/-- A fix that changes nothing works on coupled places. -/
theorem works_of_unchanged (h : s.Tracks d ops) {u v : Nat} {candidate : Candidate}
    (hu : s.layout.mapping[p.control]? = some u) (hv : s.layout.mapping[p.target]? = some v)
    (huv : d.Coupled u v) (hfix : carry s candidate.fix = .ok ([], s))
    (hcost : candidate.cost = directionPrice d costs u v) :
    candidate.Works d costs s ops p := by
  refine ⟨[], s, u, v, hfix, ?_, List.forall_mem_nil _, hu, hv, huv, ?_⟩
  · rw [List.append_nil]
    exact h
  · rw [hcost, List.length_nil, Nat.zero_mul, Nat.zero_add]

/-! ## Chains -/

/-- Which operand a chain moves, where it ends up and what it costs: the target stops next to the
control if that hop is native, and else the control next to the target. -/
theorem chainAlong_cases (costs : CostModel) {k u v : Nat} {route : List Nat}
    (h : d.IsRoute u v (k + 1) route) :
    (∃ front w, route.reverse = front ++ [w, u] ∧ front.length = k ∧ d.Coupled u w ∧
      chainAlong d costs route =
        ⟨k * costs.swap + directionPrice d costs u w, .chain route.reverse⟩) ∨
    ∃ front w, route = front ++ [w, v] ∧ front.length = k ∧ d.Coupled w v ∧
      chainAlong d costs route = ⟨k * costs.swap + directionPrice d costs w v, .chain route⟩ := by
  obtain ⟨back, x, hback, hbacklen, hxu⟩ := h.reverse.exists_lastHop
  obtain ⟨front, w, hfront, hfrontlen, hwv⟩ := h.exists_lastHop
  have hfirst : route = u :: x :: back.reverse := by
    rw [← List.reverse_reverse route, hback, List.reverse_append]
    rfl
  have hlen : route.length - 2 = k := by
    rw [h.length_eq]
    omega
  have hlast : route.drop k = [w, v] := by
    rw [hfront, ← hfrontlen, List.drop_left]
  have hchain : chainAlong d costs route =
      if d.hasEdge u x then ⟨k * costs.swap, .chain route.reverse⟩
      else if d.hasEdge w v then ⟨k * costs.swap, .chain route⟩
      else ⟨k * costs.swap + costs.reverse, .chain route⟩ := by
    simp only [chainAlong, hlen, hlast]
    rw [hfirst]
  by_cases hux : d.hasEdge u x = true
  · -- the first hop of the route is the last one of the way back
    refine Or.inl ⟨back, x, hback, hbacklen, hxu.symm, ?_⟩
    rw [hchain, if_pos hux, directionPrice_of_hasEdge hux, Nat.add_zero]
  · refine Or.inr ⟨front, w, hfront, hfrontlen, hwv, ?_⟩
    rw [hchain, if_neg hux]
    by_cases hedge : d.hasEdge w v = true
    · rw [if_pos hedge, directionPrice_of_hasEdge hedge, Nat.add_zero]
    · rw [if_neg hedge, directionPrice_of_not_hasEdge hedge]

/-- A chain along a route works. -/
theorem works_of_isRoute (h : s.Tracks d ops) {k u v : Nat} {route : List Nat}
    (hroute : d.IsRoute u v (k + 1) route) (hu : s.layout.mapping[p.control]? = some u)
    (hv : s.layout.mapping[p.target]? = some v) :
    (chainAlong d costs route).Works d costs s ops p := by
  rcases chainAlong_cases costs hroute with
    ⟨front, w, hsplit, hlen, huw, hchain⟩ | ⟨front, w, hsplit, hlen, hwv, hchain⟩
  · -- the target moves along the route turned round
    have hback := hroute.reverse
    rw [hsplit] at hback hchain
    obtain ⟨swaps, moved, hcarry, htracks, hall, hcount, htarget, hcontrol⟩ :=
      swapHops_of_isRoute h hback hv hu
    refine ⟨swaps, moved, u, w, ?_, htracks, hall, hcontrol, htarget, huw, ?_⟩
    · rw [hchain]
      exact hcarry
    · rw [hchain, hcount, hlen]
  · rw [hsplit] at hroute hchain
    obtain ⟨swaps, moved, hcarry, htracks, hall, hcount, hcontrol, htarget⟩ :=
      swapHops_of_isRoute h hroute hu hv
    rw [hsplit]
    refine ⟨swaps, moved, w, v, ?_, htracks, hall, hcontrol, htarget, hwv, ?_⟩
    · rw [hchain]
      exact hcarry
    · rw [hchain, hcount, hlen]

/-! ## Relocations -/

/-- What a relocation offers: the unused `mover` goes to a place next to the `anchor`, in exchange
for an unused qubit there. -/
theorem of_relocation {mover anchor : Nat} {candidate : Candidate}
    (hcons : s.layout.Consistent d.size)
    (h : relocation? d costs s p mover anchor = .ok (some candidate)) :
    mover ∉ s.used ∧ ∃ place site partner, s.layout.mapping[anchor]? = some place ∧
      d.Coupled place site ∧ s.layout.mapping[partner]? = some site ∧ partner ∉ s.used ∧
      candidate = ⟨if mover = p.control then directionPrice d costs site place
        else directionPrice d costs place site, .relocate mover partner⟩ := by
  unfold relocation? at h
  by_cases hused : s.used.contains mover = true
  · rw [if_pos hused] at h
    cases h
  · rw [if_neg hused] at h
    obtain ⟨place, hplace, h⟩ := bind_eq_ok_iff.1 h
    obtain ⟨sites, hsites, h⟩ := bind_eq_ok_iff.1 h
    rw [pure_eq_ok_iff, Option.map_eq_some_iff] at h
    obtain ⟨⟨site, partner⟩, hfind, rfl⟩ := h
    obtain ⟨w, hw, hsite⟩ :=
      exists_of_forall₂ (mapM_eq_ok_iff.1 hsites) (List.mem_of_find?_eq_some hfind)
    obtain ⟨partner', hpartner, hsite⟩ := bind_eq_ok_iff.1 hsite
    cases hsite
    have hfree := List.find?_some hfind
    rw [Bool.not_eq_true', ← Bool.not_eq_true, List.contains_iff_mem] at hfree
    rw [List.contains_iff_mem] at hused
    rw [lookup_eq_ok_iff] at hplace hpartner
    exact ⟨hused, place, site, partner, hplace, d.mem_neighbours_iff.1 hw,
      hcons.assignment_iff.1 hpartner, hfree, rfl⟩

/-- The lookups of a relocation succeed. -/
theorem exists_relocation (costs : CostModel) (p : Pair) (mover : Nat) {anchor : Nat}
    (hcons : s.layout.Consistent d.size) (hanchor : anchor < d.size) :
    ∃ r, relocation? d costs s p mover anchor = .ok r := by
  unfold relocation?
  by_cases hused : s.used.contains mover = true
  · rw [if_pos hused]
    exact ⟨none, rfl⟩
  · rw [if_neg hused]
    obtain ⟨place, hplace⟩ := hcons.mapping.exists_entry hanchor
    have hsites : ∃ sites, (d.neighbours place).mapM (fun w => do
        let partner ← AllocError.lookup (s.layout.logical? w)
        pure (w, partner)) = Except.ok sites := by
      refine exists_mapM fun w hw => ?_
      obtain ⟨partner, hpartner, -⟩ := hcons.exists_logical (d.mem_neighbours_iff.1 hw).lt.2
      exact ⟨_, bind_eq_ok_iff.2 ⟨partner, lookup_eq_ok_iff.2 hpartner, rfl⟩⟩
    obtain ⟨sites, hsites⟩ := hsites
    exact ⟨_, bind_eq_ok_iff.2 ⟨place, lookup_eq_ok_iff.2 hplace, bind_eq_ok_iff.2 ⟨sites, hsites,
      rfl⟩⟩⟩

/-- A relocation of one operand next to the other works. -/
theorem works_of_relocation (h : s.Tracks d ops) {mover anchor : Nat} {candidate : Candidate}
    (hpair : mover = p.control ∧ anchor = p.target ∨ mover = p.target ∧ anchor = p.control)
    (hne : p.control ≠ p.target) (hmover : mover < d.size)
    (hrel : relocation? d costs s p mover anchor = .ok (some candidate)) :
    candidate.Works d costs s ops p := by
  obtain ⟨hunused, place, site, partner, hanchor, hcoupled, hpartner, hfree, rfl⟩ :=
    of_relocation h.layout hrel
  obtain ⟨m, hm⟩ := h.layout.mapping.exists_entry hmover
  obtain ⟨layout, hlayout, hmap, htracks⟩ := h.relocate hm hpartner hunused hfree
  have hlen := h.layout.mapping.length_eq
  have hmoved : layout.mapping[mover]? = some site := by
    rw [hmap, getElem?_exchange (by rw [hlen]; exact hmover)
      (by rw [hlen]; exact h.layout.mapping.place_lt hpartner), Equiv.swap_apply_left, hpartner]
  have hkept : layout.mapping[anchor]? = some place := by
    rw [hmap, getElem?_exchange_of_ne (by rw [hlen]; exact hmover)
      (by rw [hlen]; exact h.layout.mapping.place_lt hpartner), hanchor]
    · rcases hpair with ⟨rfl, rfl⟩ | ⟨rfl, rfl⟩
      · exact hne.symm
      · exact hne
    · -- the partner is not the anchor: no place is coupled with itself
      rintro rfl
      exact hcoupled.ne (Option.some.inj (hanchor.symm.trans hpartner))
  have hcarry : carry s (.relocate mover partner) = .ok
      ([], { s with layout := layout, initial := exchange s.initial mover partner }) :=
    bind_eq_ok_iff.2 ⟨layout, lookup_eq_ok_iff.2 hlayout, rfl⟩
  rw [← List.append_nil ops] at htracks
  rcases hpair with ⟨rfl, rfl⟩ | ⟨rfl, rfl⟩
  · refine ⟨[], _, site, place, hcarry, htracks, List.forall_mem_nil _, hmoved, hkept,
      hcoupled.symm, ?_⟩
    rw [if_pos rfl, List.length_nil, Nat.zero_mul, Nat.zero_add]
  · refine ⟨[], _, place, site, hcarry, htracks, List.forall_mem_nil _, hkept, hmoved,
      hcoupled, ?_⟩
    rw [if_neg hne.symm, List.length_nil, Nat.zero_mul, Nat.zero_add]

/-- One of the operands is tried as the mover, and then the other. -/
theorem relocate_eq (d : Device) (costs : CostModel) (s : State) (p : Pair) :
    ∃ mover anchor, (mover = p.control ∧ anchor = p.target ∨
      mover = p.target ∧ anchor = p.control) ∧
      relocate? d costs s p = if s.used.contains mover then .ok none else (do
        match ← relocation? d costs s p mover anchor with
        | some candidate => .ok (some candidate)
        | none => relocation? d costs s p anchor mover) := by
  unfold relocate?
  by_cases hused : s.used.contains p.target = true
  · simp only [if_pos hused]
    exact ⟨p.control, p.target, Or.inl ⟨rfl, rfl⟩, rfl⟩
  · simp only [if_neg hused]
    refine ⟨p.target, p.control, Or.inr ⟨rfl, rfl⟩, ?_⟩
    rw [if_neg hused]
    rfl

theorem lt_of_operands {mover anchor n : Nat}
    (hpair : mover = p.control ∧ anchor = p.target ∨ mover = p.target ∧ anchor = p.control)
    (hcontrol : p.control < n) (htarget : p.target < n) : mover < n ∧ anchor < n := by
  rcases hpair with ⟨rfl, rfl⟩ | ⟨rfl, rfl⟩
  · exact ⟨hcontrol, htarget⟩
  · exact ⟨htarget, hcontrol⟩

theorem works_of_relocate (h : s.Tracks d ops) (hne : p.control ≠ p.target)
    (hcontrol : p.control < d.size) (htarget : p.target < d.size) {candidate : Candidate}
    (hrel : relocate? d costs s p = .ok (some candidate)) : candidate.Works d costs s ops p := by
  obtain ⟨mover, anchor, hpair, heq⟩ := relocate_eq d costs s p
  have hlt := lt_of_operands hpair hcontrol htarget
  rw [heq] at hrel
  split_ifs at hrel
  · cases hrel
  · obtain ⟨first, hfirst, hrel⟩ := bind_eq_ok_iff.1 hrel
    cases first with
    | some candidate' =>
      cases hrel
      exact works_of_relocation h hpair hne hlt.1 hfirst
    | none => exact works_of_relocation h (by tauto) hne hlt.2 hrel

theorem exists_relocate (costs : CostModel) (hcons : s.layout.Consistent d.size)
    (hcontrol : p.control < d.size) (htarget : p.target < d.size) :
    ∃ r, relocate? d costs s p = .ok r := by
  obtain ⟨mover, anchor, hpair, heq⟩ := relocate_eq d costs s p
  have hlt := lt_of_operands hpair hcontrol htarget
  rw [heq]
  split_ifs
  · exact ⟨none, rfl⟩
  · obtain ⟨first, hfirst⟩ := exists_relocation costs p mover hcons hlt.2
    obtain ⟨second, hsecond⟩ := exists_relocation costs p anchor hcons hlt.1
    cases first with
    | some candidate => exact ⟨_, bind_eq_ok_iff.2 ⟨_, hfirst, rfl⟩⟩
    | none => exact ⟨_, bind_eq_ok_iff.2 ⟨_, hfirst, hsecond⟩⟩

/-! ## Candidates -/

/-- **A candidate works**: its fix brings the pair together at its cost. -/
theorem works_of_evaluate (h : s.Tracks d ops) (hne : p.control ≠ p.target) {candidate : Candidate}
    (heval : evaluate d costs s p = .ok candidate) : candidate.Works d costs s ops p := by
  obtain ⟨u, hu, heval⟩ := bind_eq_ok_iff.1 heval
  obtain ⟨v, hv, heval⟩ := bind_eq_ok_iff.1 heval
  rw [lookup_eq_ok_iff] at hu hv
  have hM := h.layout.mapping
  split_ifs at heval with huv hvu
  · cases heval
    exact works_of_unchanged h hu hv (Or.inl (d.hasEdge_iff.1 huv)) rfl
      (directionPrice_of_hasEdge huv).symm
  · cases heval
    exact works_of_unchanged h hu hv (Or.inr (d.hasEdge_iff.1 hvu)) rfl
      (directionPrice_of_not_hasEdge huv).symm
  · obtain ⟨found, hfound, heval⟩ := bind_eq_ok_iff.1 heval
    cases found with
    | some candidate' =>
      cases heval
      exact works_of_relocate h hne (hM.place_lt hu) (hM.place_lt hv) hfound
    | none =>
      obtain ⟨route, hroute, heval⟩ := bind_eq_ok_iff.1 heval
      cases heval
      obtain ⟨k, hk, hroute⟩ :=
        Device.isRoute_of_route (ofDevice_eq_ok_iff.1 hroute)
      cases k with
      | zero =>
        -- distinct qubits do not share a place
        obtain rfl := Search.isDepth_zero_iff.1 hk
        exact absurd (hM.place_unique hu hv) hne
      | succ k => exact works_of_isRoute h hroute hu hv

/-- A pair has a candidate, unless no route joins the places of its qubits. -/
theorem evaluate_cases (costs : CostModel) (hcons : s.layout.Consistent d.size)
    (hcontrol : p.control < d.size) (htarget : p.target < d.size) :
    (∃ candidate, evaluate d costs s p = .ok candidate) ∨
    ∃ u v e, u < d.size ∧ v < d.size ∧ d.route u v = .error e ∧
      evaluate d costs s p = .error (.device e) := by
  obtain ⟨u, hu⟩ := hcons.mapping.exists_entry hcontrol
  obtain ⟨v, hv⟩ := hcons.mapping.exists_entry htarget
  obtain ⟨found, hfound⟩ := exists_relocate costs hcons hcontrol htarget
  unfold evaluate
  simp only [Layout.physical?, bind_of_eq_ok (lookup_eq_ok_iff.2 hu),
    bind_of_eq_ok (lookup_eq_ok_iff.2 hv), bind_of_eq_ok hfound]
  split_ifs
  · exact Or.inl ⟨_, rfl⟩
  · exact Or.inl ⟨_, rfl⟩
  · cases found with
    | some candidate => exact Or.inl ⟨candidate, rfl⟩
    | none =>
      cases hroute : d.route u v with
      | ok route => exact Or.inl ⟨_, rfl⟩
      | error e =>
        exact Or.inr ⟨u, v, e, hcons.mapping.entry_lt hu, hcons.mapping.entry_lt hv, hroute, rfl⟩

/-- On a connected device every pair has a candidate. -/
theorem exists_evaluate (costs : CostModel) (hcons : s.layout.Consistent d.size)
    (hconn : d.Connected) (hcontrol : p.control < d.size) (htarget : p.target < d.size) :
    ∃ candidate, evaluate d costs s p = .ok candidate := by
  rcases evaluate_cases costs hcons hcontrol htarget with hok | ⟨u, v, e, hu, hv, hroute, -⟩
  · exact hok
  · obtain ⟨route, hroute'⟩ := Device.exists_route_of_linked hu hv (hconn u v hu hv)
    rw [hroute] at hroute'
    cases hroute'

/-! ## The gate -/

/-- Coupled qubits get a plain or a reversed gate at the price of their direction. -/
theorem adjacent_of_coupled (costs : CostModel) {M : List Nat} {u v : Nat}
    (hu : M[p.control]? = some u) (hv : M[p.target]? = some v) (huv : d.Coupled u v) :
    ∃ gate, Gate.adjacent d M p = .ok gate ∧
      (gate = .cnot p.control p.target ∨ gate = .rev p.control p.target) ∧
      Gate.Realizes d p u v gate ∧ costs.price gate = directionPrice d costs u v := by
  simp only [Gate.adjacent, hu, hv]
  by_cases hedge : d.hasEdge u v = true
  · exact ⟨.cnot p.control p.target, if_pos hedge, Or.inl rfl, Gate.realizes_cnot hedge,
      (directionPrice_of_hasEdge hedge).symm⟩
  · have hback : d.hasEdge v u = true :=
      d.hasEdge_iff.2 (huv.resolve_left (mt d.hasEdge_iff.2 hedge))
    exact ⟨.rev p.control p.target, (if_neg hedge).trans (if_pos hback), Or.inr rfl,
      Gate.realizes_rev hedge hback, (directionPrice_of_not_hasEdge hedge).symm⟩

/-- **A candidate that works is applied at its cost**: swaps and then one plain or reversed gate. -/
theorem apply_of_works {candidate : Candidate} (h : candidate.Works d costs s ops p) :
    ∃ swaps gate s', apply d s p candidate.fix = .ok (swaps ++ [gate], s') ∧
      s'.Tracks d (ops ++ (swaps ++ [gate])) ∧ (∀ op ∈ swaps, op.isSwap = true) ∧
      (gate = .cnot p.control p.target ∨ gate = .rev p.control p.target) ∧
      ((swaps ++ [gate]).map costs.price).sum = candidate.cost := by
  obtain ⟨swaps, moved, u, v, hcarry, htracks, hall, hu, hv, huv, hcost⟩ := h
  obtain ⟨gate, hgate, hkind, hrealizes, hprice⟩ := adjacent_of_coupled costs hu hv huv
  refine ⟨swaps, gate, (moved.use p.control).use p.target, ?_, ?_, hall, hkind, ?_⟩
  · rw [apply_eq]
    exact bind_eq_ok_iff.2 ⟨_, hcarry, bind_eq_ok_iff.2 ⟨gate, hgate, rfl⟩⟩
  · rw [← List.append_assoc]
    exact htracks.gate (hrealizes.canRun htracks.layout.mapping hu hv) hrealizes.not_swap
      hrealizes.operands
  · rw [List.map_append, List.sum_append, costs.sum_price_of_isSwap hall, List.map_singleton,
      List.sum_singleton, hprice, hcost]

end Carry

end QubitAllocation.Greedy
