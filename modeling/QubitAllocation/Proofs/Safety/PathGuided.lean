import QubitAllocation.Proofs.Exact.Soundness
import QubitAllocation.Proofs.PathGuided.Soundness
import QubitAllocation.Proofs.Safety.Basic

/-!
# Path-guided allocation is proper

The swaps along the later hops of a route take what is at its end to the place after its head and
leave its head alone (`getElem?_exchangeAll_laterHops`). So once a target has been brought closer,
it stands next to its control (`exists_approach`), and a gate on the pair can be emitted
(`exists_settle`). Meeting a dependency therefore succeeds if a route joins its qubits
(`exists_meet`) and is refused only if none does (`proper_meet`), and allocation from any mapping is
proper (`proper_build`).

Whether a pair comes again can also be read from counters that are set up from all dependencies and
count down as they are met. The loop with counters gives the same as the loop without
(`runCounted_tally`), so no counter is ever asked for more than it holds.
-/

set_option autoImplicit false

namespace QubitAllocation.PathGuided

open Arrangement Outcome Replay

/-! ## Chains along a route -/

section Chain

variable {d : Device} {l : Layout}

theorem length_exchangeAll (A : List Nat) (swaps : List (Nat × Nat)) :
    (exchangeAll A swaps).length = A.length := by
  induction swaps generalizing A with
  | nil => rfl
  | cons m swaps ih => exact (ih _).trans (length_exchange A m.1 m.2)

/-- Exchanging along a list of places, last hop first, takes what is on the last place to the first
one, and leaves what is not on the list. -/
theorem getElem?_exchangeAll_laterHops {A places : List Nat} {w v : Nat}
    (hlt : ∀ q ∈ places, q < A.length) (hnd : places.Nodup) (hhead : places.head? = some w)
    (hlast : places.getLast? = some v) :
    (exchangeAll A (places.zip places.tail).reverse)[w]? = A[v]? ∧
      ∀ q, q ∉ places → (exchangeAll A (places.zip places.tail).reverse)[q]? = A[q]? := by
  induction places generalizing w with
  | nil => cases hhead
  | cons x places ih =>
    cases hhead
    cases places with
    | nil =>
      cases hlast
      exact ⟨rfl, fun q _ => rfl⟩
    | cons y places =>
      rw [List.forall_mem_cons] at hlt
      rw [List.nodup_cons] at hnd
      obtain ⟨hmoved, hrest⟩ := ih hlt.2 hnd.2 rfl hlast
      simp only [List.tail_cons] at hmoved hrest ⊢
      -- the rest of the list brings it to `y`, and the hop to `y` is made last
      generalize hB : exchangeAll A ((y :: places).zip places).reverse = B at *
      have hsplit : exchangeAll A ((x :: y :: places).zip (y :: places)).reverse =
          exchange B x y := by
        rw [← hB, List.zip_cons_cons, List.reverse_cons, exchangeAll, List.foldl_append]
        rfl
      have hlen : B.length = A.length := by
        rw [← hB]
        exact length_exchangeAll _ _
      have hx : x < B.length := hlen ▸ hlt.1
      have hy : y < B.length := hlen ▸ hlt.2 y List.mem_cons_self
      rw [hsplit]
      constructor
      · rw [getElem?_exchange hx hy, Equiv.swap_apply_left]
        exact hmoved
      · intro q hq
        rw [List.mem_cons, not_or] at hq
        rw [getElem?_exchange_of_ne hx hy hq.1 fun h => hq.2 (h ▸ List.mem_cons_self)]
        exact hrest q hq.2

/-- A chain along coupled hops can be written down, and it exchanges what the places hold. -/
theorem exists_chain {hops : List (Nat × Nat)} (hl : l.Consistent d.size)
    (hhops : ∀ hop ∈ hops, d.Coupled hop.1 hop.2) :
    ∃ ops l', chain d hops l = .ok (ops, l') ∧ l'.Consistent d.size ∧
      l'.assignment = exchangeAll l.assignment hops := by
  induction hops generalizing l with
  | nil => exact ⟨[], l, rfl, hl, rfl⟩
  | cons hop hops ih =>
    obtain ⟨x, y⟩ := hop
    rw [List.forall_mem_cons] at hhops
    -- the swap as it is written
    have hcoupled := Exact.coupled_orient hhops.1
    have hexchange := Exact.exchange_orient hl.length_assignment hhops.1
    generalize horient : (if d.isReverseEdge x y then (y, x) else (x, y)) = uv at *
    obtain ⟨u, v⟩ := uv
    obtain ⟨a, hlog_a, ha⟩ := hl.exists_logical hcoupled.lt.1
    obtain ⟨b, hlog_b, hb⟩ := hl.exists_logical hcoupled.lt.2
    obtain ⟨moved, hmoved, -, hassign, hcons⟩ := hl.exchangeLogical ha hb
    obtain ⟨ops, l', hops, hl', hassign'⟩ := ih hcons hhops.2
    refine ⟨.swap a b :: ops, l', ?_, hl', ?_⟩
    · rw [chain, horient]
      rw [← hl.exchangePhysical_eq ha hb] at hmoved
      exact bind_eq_ok_iff.2 ⟨a, lookup_eq_ok_iff.2 hlog_a, bind_eq_ok_iff.2 ⟨b,
        lookup_eq_ok_iff.2 hlog_b, bind_eq_ok_iff.2 ⟨moved, lookup_eq_ok_iff.2 hmoved,
          bind_eq_ok_iff.2 ⟨_, hops, rfl⟩⟩⟩⟩
    · rw [hassign', hassign, hexchange]
      rfl

theorem exists_holders {route : List Nat} (hl : l.Consistent d.size)
    (hroute : ∀ x ∈ route, x < d.size) : ∃ held, holders l route = .ok held := by
  refine exists_mapM fun x hx => ?_
  obtain ⟨a, ha, -⟩ := hl.exists_logical (hroute x hx)
  exact ⟨a, lookup_eq_ok_iff.2 ha⟩

theorem exists_fold {route : List Nat} (hl : l.Consistent d.size)
    (hroute : ∀ x ∈ route, x < d.size) (M : List Nat) : ∃ M', fold l route M = .ok M' := by
  unfold fold
  induction route generalizing M with
  | nil => exact ⟨M, rfl⟩
  | cons x route ih =>
    rw [List.forall_mem_cons] at hroute
    obtain ⟨a, ha, -⟩ := hl.exists_logical hroute.1
    obtain ⟨M', hM'⟩ := ih hroute.2 (M.set a x)
    refine ⟨M', foldlM_cons_eq_ok_iff.2 ⟨_, ?_, hM'⟩⟩
    exact bind_eq_ok_iff.2 ⟨a, lookup_eq_ok_iff.2 ha, rfl⟩

end Chain

/-! ## Meeting a dependency -/

section Meeting

variable {d : Device} {costs : CostModel} {p : Pair} {s s' : State} {u v : Nat}
  {seenAgain : Bool} {route : List Nat}

/-- **The target can be brought next to the control**, which stays where it is. -/
theorem exists_approach (costs : CostModel) (hl : s.layout.Consistent d.size) {k : Nat}
    (hroute : d.IsRoute u v (k + 1) route) (hu : s.layout.mapping[p.control]? = some u)
    (hv : s.layout.mapping[p.target]? = some v) :
    ∃ near w, approach d costs route s = .ok near ∧ near.layout.Consistent d.size ∧
      near.layout.mapping[p.control]? = some u ∧ near.layout.mapping[p.target]? = some w ∧
      d.Coupled u w := by
  obtain ⟨front, w, hsplit, -, hcoupled⟩ := hroute.reverse.exists_lastHop
  obtain rfl : route = u :: w :: front.reverse := by
    rw [← List.reverse_reverse route, hsplit]
    simp
  have hlt := hroute.lt (hl.mapping.entry_lt hu)
  unfold approach
  split_ifs with hshort
  · -- the route is a single hop
    obtain rfl : front = [] := by
      simpa using hshort
    obtain rfl : w = v := Option.some.inj hroute.last_eq
    exact ⟨s, w, rfl, hl, hu, hv, hcoupled.symm⟩
  · obtain ⟨held, hheld⟩ := exists_holders hl hlt
    obtain ⟨ops, layout, hchain, hlayout, hassign⟩ := exists_chain hl
      fun hop hhop => (of_mem_laterHops hroute.linked hhop).1
    obtain ⟨initial, hinitial⟩ := exists_fold hlayout hlt (s.use held).initial
    -- where the chain leaves the two qubits
    have hnd := List.nodup_cons.1 hroute.nodup
    obtain ⟨hmoved, hkept⟩ := getElem?_exchangeAll_laterHops (A := s.layout.assignment)
      (fun q hq => hl.length_assignment.symm ▸ hlt q (List.mem_cons_of_mem _ hq)) hnd.2 rfl
      hroute.last_eq
    have hcontrol : layout.mapping[p.control]? = some u := by
      rw [← hlayout.assignment_iff, hassign]
      exact (hkept u hnd.1).trans (hl.assignment_iff.2 hu)
    have htarget : layout.mapping[p.target]? = some w := by
      rw [← hlayout.assignment_iff, hassign]
      exact hmoved.trans (hl.assignment_iff.2 hv)
    rw [bind_of_eq_ok hheld, bind_of_eq_ok hchain]
    dsimp only
    split_ifs
    · rw [bind_of_eq_ok hinitial]
      exact ⟨_, w, rfl, hlayout, hcontrol, htarget, hcoupled.symm⟩
    · refine ⟨_, w, rfl, ?_⟩
      rw [foldl_emitSwap]
      exact ⟨hlayout, hcontrol, htarget, hcoupled.symm⟩

/-- On coupled qubits the gate can be emitted. -/
theorem exists_settle (costs : CostModel) (seenAgain : Bool) (hl : s.layout.Consistent d.size)
    (hu : s.layout.mapping[p.control]? = some u) (hv : s.layout.mapping[p.target]? = some v)
    (huv : d.Coupled u v) : ∃ met, settle d costs seenAgain p s = .ok met := by
  obtain ⟨layout, hlayout, -⟩ := hl.exchangeLogical hu hv
  unfold settle
  simp only [Layout.physical?, bind_of_eq_ok (lookup_eq_ok_iff.2 hu),
    bind_of_eq_ok (lookup_eq_ok_iff.2 hv), bind_of_eq_ok (lookup_eq_ok_iff.2 hlayout)]
  split_ifs with hnative hreverse
  · exact ⟨_, rfl⟩
  · exact ⟨_, rfl⟩
  · exact ⟨_, rfl⟩
  · exact ⟨_, rfl⟩
  · -- neither direction is an edge
    exact absurd huv (by rw [Device.Coupled, ← d.hasEdge_iff, ← d.hasEdge_iff]; tauto)

/-- **A dependency can be met if a route joins its qubits.** -/
theorem exists_meet (costs : CostModel) (seenAgain : Bool) (hl : s.layout.Consistent d.size)
    (hne : p.control ≠ p.target) (hu : s.layout.mapping[p.control]? = some u)
    (hv : s.layout.mapping[p.target]? = some v) (hroute : d.route u v = .ok route) :
    ∃ met, meet d costs seenAgain p s = .ok met := by
  obtain ⟨k, hk, hisRoute⟩ := Device.isRoute_of_route hroute
  unfold meet
  simp only [Layout.physical?, bind_of_eq_ok (lookup_eq_ok_iff.2 hu),
    bind_of_eq_ok (lookup_eq_ok_iff.2 hv), bind_of_eq_ok (ofDevice_eq_ok_iff.2 hroute)]
  split
  · obtain ⟨held, hheld⟩ := exists_holders hl (hisRoute.lt (hl.mapping.entry_lt hu))
    rw [bind_of_eq_ok hheld]
    exact ⟨_, rfl⟩
  · cases k with
    | zero =>
      -- the two qubits would be on one place
      obtain rfl := Search.isDepth_zero_iff.1 hk
      exact absurd (hl.mapping.place_unique hu hv) hne
    | succ k =>
      obtain ⟨near, w, hnear, hl', hu', hw, hcoupled⟩ := exists_approach costs hl hisRoute hu hv
      have hmet (again : Bool) := exists_settle costs again hl' hu' hw hcoupled
      obtain ⟨met, hmet⟩ := hmet _
      rw [bind_of_eq_ok hnear, bind_of_eq_ok hmet]
      exact ⟨_, rfl⟩

/-- Without a route the dependency is refused as the route is. -/
theorem meet_of_route_error (hu : s.layout.mapping[p.control]? = some u)
    (hv : s.layout.mapping[p.target]? = some v) {e : DeviceError} (h : d.route u v = .error e) :
    meet d costs seenAgain p s = .error (.device e) := by
  unfold meet
  rw [Layout.physical?, bind_of_eq_ok (lookup_eq_ok_iff.2 hu), Layout.physical?,
    bind_of_eq_ok (lookup_eq_ok_iff.2 hv), h]
  rfl

/-- **Meeting a dependency is refused only if no route joins its qubits.** -/
theorem proper_meet (costs : CostModel) (seenAgain : Bool) (hl : s.layout.Consistent d.size)
    (hcontrol : p.control < d.size) (htarget : p.target < d.size) (hne : p.control ≠ p.target) :
    Proper (meet d costs seenAgain p s) := by
  obtain ⟨u, hu⟩ := hl.mapping.exists_entry hcontrol
  obtain ⟨v, hv⟩ := hl.mapping.exists_entry htarget
  cases hroute : d.route u v with
  | ok route => exact proper_of_exists (exists_meet costs seenAgain hl hne hu hv hroute)
  | error e =>
    rw [meet_of_route_error hu hv hroute, Device.error_of_route hroute]
    exact proper_error_iff.2 rfl

/-! ## Used qubits are qubits of the device -/

theorem used_of_approach (hl : s.layout.Consistent d.size)
    (h : approach d costs route s = .ok s') {q : Nat} (hq : q ∈ s'.used) :
    q ∈ s.used ∨ s.layout.On route q := by
  unfold approach at h
  split_ifs at h
  · cases h
    exact Or.inl hq
  · obtain ⟨held, hheld, h⟩ := bind_eq_ok_iff.1 h
    obtain ⟨⟨ops, layout⟩, -, h⟩ := bind_eq_ok_iff.1 h
    have hused : q ∈ (s.use held).used := by
      split_ifs at h
      · obtain ⟨initial, -, h⟩ := bind_eq_ok_iff.1 h
        cases h
        exact hq
      · cases h
        rw [foldl_emitSwap] at hq
        exact hq
    exact (mem_used_use.1 hused).symm.imp_right (mem_holders_iff hl hheld).1

theorem used_of_settle (h : settle d costs seenAgain p s = .ok s') : s'.used = s.used := by
  obtain ⟨u, -, h⟩ := bind_eq_ok_iff.1 h
  obtain ⟨v, -, h⟩ := bind_eq_ok_iff.1 h
  split_ifs at h
  · cases h
    rfl
  · obtain ⟨layout, -, h⟩ := bind_eq_ok_iff.1 h
    cases h
    rfl
  · obtain ⟨layout, -, h⟩ := bind_eq_ok_iff.1 h
    cases h
    rfl
  · cases h
    rfl

theorem used_of_meet (hl : s.layout.Consistent d.size)
    (h : meet d costs seenAgain p s = .ok s') (hused : ∀ q ∈ s.used, q < d.size) :
    ∀ q ∈ s'.used, q < d.size := by
  obtain ⟨u, v, route, hu, hv, -, hcases⟩ := meet_cases h
  have hpair : ∀ q ∈ [p.control, p.target], q < d.size := by
    simp [hl.mapping.place_lt hu, hl.mapping.place_lt hv]
  have hon {q : Nat} (hq : s.layout.On route q) : q < d.size := by
    obtain ⟨x, -, hx⟩ := hq
    exact hl.mapping.place_lt hx
  intro q hq
  rcases hcases with ⟨-, m, held, -, hheld, rfl⟩ | ⟨near, met, hnear, hmet, rfl⟩
  · rcases mem_used_use.1 hq with hq | hq
    · exact hpair q hq
    · rcases mem_used_use.1 hq with hq | hq
      · exact hon ((mem_holders_iff hl hheld).1 hq)
      · exact hused q hq
  · rcases mem_used_use.1 hq with hq | hq
    · exact hpair q hq
    · rw [used_of_settle hmet] at hq
      rcases used_of_approach hl hnear hq with hq | hq
      · exact hused q hq
      · exact hon hq

end Meeting

/-! ## Runs -/

/-- The states that a run passes through, with the entries that are still to be met there. -/
inductive Passes (d : Device) (costs : CostModel) (entries : List (Nat × Pair)) (start : State) :
    List (Nat × Pair) → State → Prop
  | refl : Passes d costs entries start entries start
  | met {callPoint : Nat} {p : Pair} {rest : List (Nat × Pair)} {s s' : State} :
      Passes d costs entries start ((callPoint, p) :: rest) s →
      meet d costs (rest.any fun entry => entry.2 == p) p { s with ops := [] } = .ok s' →
      Passes d costs entries start rest s'

/-- What a state has is in range: its layout and its first mapping are arrangements of the device's
qubits, and every qubit that was marked as used is one of them. -/
structure State.InRange (d : Device) (s : State) : Prop where
  layout : s.layout.Consistent d.size
  initial : IsArrangement d.size s.initial
  used : ∀ q ∈ s.used, q < d.size

/-- The entries are pairs of two qubits of the device. -/
def Within (d : Device) (entries : List (Nat × Pair)) : Prop :=
  ∀ entry ∈ entries, entry.2.control < d.size ∧ entry.2.target < d.size ∧
    entry.2.control ≠ entry.2.target

section Runs

variable {d : Device} {costs : CostModel} {entries rest : List (Nat × Pair)} {start s : State}

/-- What a state has tracked does not depend on the operations of the current dependency. -/
theorem State.Tracks.clear {emitted : List Operation} (hs : s.Tracks d costs emitted) :
    ({ s with ops := [] } : State).Tracks d costs emitted :=
  ⟨hs.moves, hs.total, hs.swapTotal⟩

/-- The state in which a dependency has been met tracks what has been emitted by then. -/
theorem State.Tracks.met {emitted : List Operation} (hs : s.Tracks d costs emitted)
    {seenAgain : Bool} {p : Pair} {s' : State}
    (h : meet d costs seenAgain p { s with ops := [] } = .ok s') :
    ∃ emitted', s'.Tracks d costs emitted' := by
  obtain ⟨swaps, gate, -, -, -, -, htracks⟩ := of_meet hs.clear h
  exact ⟨_, htracks⟩

/-- **Every state that is passed through is in range**, and the entries left are among the given
ones. -/
theorem Passes.inRange {emitted : List Operation} (hstart : start.Tracks d costs emitted)
    (hused : ∀ q ∈ start.used, q < d.size) (h : Passes d costs entries start rest s) :
    s.InRange d ∧ ∀ entry ∈ rest, entry ∈ entries := by
  -- one meeting is known to keep track of what has been emitted, so the induction carries that
  have htracks : (∃ emitted, s.Tracks d costs emitted) ∧ (∀ q ∈ s.used, q < d.size) ∧
      ∀ entry ∈ rest, entry ∈ entries := by
    induction h with
    | refl => exact ⟨⟨emitted, hstart⟩, hused, fun _ hentry => hentry⟩
    | @met callPoint p rest s s' _ hmeet ih =>
      obtain ⟨⟨emitted, hs⟩, hused, hsub⟩ := ih
      refine ⟨hs.met hmeet,
        used_of_meet (s := { s with ops := [] }) hs.moves.layout hmeet hused, ?_⟩
      exact fun entry hentry => hsub entry (List.mem_cons_of_mem _ hentry)
  obtain ⟨⟨emitted, hs⟩, hused, hsub⟩ := htracks
  exact ⟨⟨hs.moves.layout, hs.moves.initial, hused⟩, hsub⟩

theorem proper_run (hwithin : Within d entries) {emitted : List Operation}
    (hs : s.Tracks d costs emitted) : Proper (run d costs entries s) := by
  induction entries generalizing s emitted with
  | nil => exact proper_ok _
  | cons entry entries ih =>
    obtain ⟨callPoint, p⟩ := entry
    obtain ⟨⟨hcontrol, htarget, hne⟩, hrest⟩ := List.forall_mem_cons.1 hwithin
    have hmeet := proper_meet (s := { s with ops := [] }) costs
      (entries.any fun entry => entry.2 == p) hs.moves.layout hcontrol htarget hne
    refine hmeet.bind fun met hmet => ?_
    obtain ⟨emitted', htracks⟩ := hs.met hmet
    exact (ih hrest htracks).bind fun _ _ => proper_pure _

/-! ## Counters -/

/-- How often each pair occurs. -/
def tally (entries : List (Nat × Pair)) (p : Pair) : Nat :=
  entries.countP fun entry => entry.2 == p

/-- One occurrence of the pair less; there must be one left. -/
def countDown (counts : Pair → Nat) (p : Pair) : Except AllocError (Pair → Nat) :=
  match counts p with
  | 0 => .error .outOfRange
  | left + 1 => .ok (Function.update counts p left)

/-- Meet the dependencies in order and count down; a pair is seen again if its counter is above
one. -/
def runCounted (d : Device) (costs : CostModel) : (Pair → Nat) → List (Nat × Pair) → State →
    Except AllocError (List Step × State)
  | _, [], s => .ok ([], s)
  | counts, (callPoint, p) :: rest, s => do
    let met ← meet d costs (decide (1 < counts p)) p { s with ops := [] }
    let left ← countDown counts p
    let (steps, final) ← runCounted d costs left rest met
    return (⟨callPoint, met.ops⟩ :: steps, final)

theorem tally_cons_self (callPoint : Nat) (p : Pair) (rest : List (Nat × Pair)) :
    tally ((callPoint, p) :: rest) p = tally rest p + 1 :=
  List.countP_cons_of_pos (beq_self_eq_true p)

theorem countDown_tally (callPoint : Nat) (p : Pair) (rest : List (Nat × Pair)) :
    countDown (tally ((callPoint, p) :: rest)) p = .ok (tally rest) := by
  rw [countDown, tally_cons_self]
  show Except.ok (Function.update (tally ((callPoint, p) :: rest)) p (tally rest p)) = _
  congr 1
  funext q
  by_cases hq : q = p
  · rw [hq, Function.update_self]
  · -- the counters of other pairs do not see the entry
    have hother : ¬ (p == q) = true := fun h => hq (beq_iff_eq.1 h).symm
    rw [Function.update_of_ne hq]
    exact List.countP_cons_of_neg hother

/-- A counter is above one exactly if the pair comes again. -/
theorem one_lt_tally_iff (callPoint : Nat) (p : Pair) (rest : List (Nat × Pair)) :
    1 < tally ((callPoint, p) :: rest) p ↔ (rest.any fun entry => entry.2 == p) = true := by
  rw [tally_cons_self, Nat.lt_add_left_iff_pos, tally, List.countP_pos_iff, List.any_eq_true]

/-- **Counting down gives the same run**, so no counter runs out. -/
theorem runCounted_tally (d : Device) (costs : CostModel) (entries : List (Nat × Pair))
    (s : State) : runCounted d costs (tally entries) entries s = run d costs entries s := by
  induction entries generalizing s with
  | nil => rfl
  | cons entry rest ih =>
    obtain ⟨callPoint, p⟩ := entry
    have hagain : decide (1 < tally ((callPoint, p) :: rest) p) =
        rest.any fun entry => entry.2 == p := by
      rw [Bool.eq_iff_iff, decide_eq_true_eq]
      exact one_lt_tally_iff callPoint p rest
    simp only [runCounted, run, hagain, bind_of_eq_ok (countDown_tally callPoint p rest), ih]

end Runs

/-! ## Allocations -/

theorem within_of_validate {d : Device} {deps : Dependencies} {pairs : List Pair}
    (hvalid : deps.validate d.size = .ok ()) (hpairs : deps.pairs = .ok pairs) :
    Within d ((deps.map Dependency.callPoint).zip pairs) := by
  rintro ⟨callPoint, p⟩ hentry
  exact Dependencies.bounds_of_validate hvalid hpairs p (List.of_mem_zip hentry).2

/-- **Path-guided allocation is proper**, from any list that is given as the first mapping. -/
theorem proper_build (d : Device) (costs : CostModel) (deps : Dependencies) (initial : List Nat) :
    Proper (build d costs deps initial) := by
  refine (proper_checkMapping initial d.size).bind fun _ hcheck => ?_
  refine (deps.proper_validate d.size).bind fun _ hvalid => ?_
  refine deps.proper_pairs.bind fun pairs hpairs => ?_
  refine (Layout.proper_ofMapping initial).bind fun layout hlayout => ?_
  obtain ⟨-, rfl⟩ := ofMapping_eq_ok_iff.1 hlayout
  have hstart : (State.start ⟨initial, inverse initial⟩).Tracks d costs [] :=
    State.tracks_start (checkMapping_eq_ok_iff.1 hcheck)
  refine (proper_run (within_of_validate hvalid hpairs) hstart).bind fun final _ => ?_
  refine (proper_narrowCost _).bind fun _ _ => (proper_narrowCost _).bind fun _ _ => proper_pure _

end QubitAllocation.PathGuided
