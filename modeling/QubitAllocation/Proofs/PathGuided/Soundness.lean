import QubitAllocation.Proofs.Gate
import QubitAllocation.Proofs.PathGuided.Chain
import QubitAllocation.Proofs.Replay.Judgement

/-!
# Path-guided solutions replay at their cost

The state tracks the operations emitted so far (`State.Tracks`): they run from its first mapping to
its layout, they touch used qubits only, and its two totals are their price and the price of their
swaps. Meeting a dependency emits swaps and then one gate on its pair, and the state tracks them as
well (`of_meet`), although a chain of swaps or a turned pair may be moved into the first mapping
instead of being emitted.

So a solution replays at its cost, its steps meet the dependencies one by one in order, and the
statistics give the price of its swaps (`build_replays`).
-/

set_option autoImplicit false

namespace QubitAllocation.PathGuided

open Arrangement Outcome Replay

/-! ## The state and its operations -/

/-- The operations run from the state's first mapping to its layout and touch used qubits only, and
the totals of the state are their prices. -/
structure State.Tracks (d : Device) (costs : CostModel) (s : State) (emitted : List Operation) :
    Prop where
  moves : Replay.Tracks d s.layout s.initial s.used emitted
  total : s.total = (emitted.map costs.price).sum
  swapTotal : s.swapTotal = costs.swap * emitted.countP Operation.isSwap

/-- From `s` to `s'` swaps and then one gate on the pair have been emitted, and `s'` tracks them
after those emitted before. -/
def EmitsFor (d : Device) (costs : CostModel) (p : Pair) (emitted : List Operation)
    (s s' : State) : Prop :=
  ∃ swaps gate, s'.ops = s.ops ++ (swaps ++ [gate]) ∧ (∀ op ∈ swaps, op.isSwap = true) ∧
    gate.isSwap = false ∧ gate.operands = (p.control, p.target) ∧
    s'.Tracks d costs (emitted ++ (swaps ++ [gate]))

section Emitting

variable {d : Device} {costs : CostModel} {p : Pair} {s s' near : State}
  {emitted swaps : List Operation} {u v : Nat}

theorem mem_used_use {qubits : List Nat} {q : Nat} :
    q ∈ (s.use qubits).used ↔ q ∈ qubits ∨ q ∈ s.used := by
  show q ∈ qubits.foldl _ s.used ↔ _
  generalize s.used = used
  induction qubits generalizing used with
  | nil => simp
  | cons r qubits ih =>
    rw [List.foldl_cons, ih, List.mem_insert_iff, List.mem_cons]
    tauto

theorem foldl_emitSwap (costs : CostModel) (s : State) (ops : List Operation) :
    ops.foldl (fun s op => s.emitSwap costs op) s =
      { s with
        ops := s.ops ++ ops
        total := s.total + (ops.map costs.price).sum
        swapTotal := s.swapTotal + (ops.map costs.price).sum } := by
  induction ops generalizing s with
  | nil => simp
  | cons op ops ih =>
    rw [List.foldl_cons, ih]
    simp [State.emitSwap, State.emit, Nat.add_assoc]

/-- Marking qubits as used does no harm. -/
theorem State.Tracks.use (h : s.Tracks d costs emitted) (qubits : List Nat) :
    (s.use qubits).Tracks d costs emitted :=
  ⟨h.moves.mono fun _ hq => mem_used_use.2 (Or.inr hq), h.total, h.swapTotal⟩

/-- Swaps of used qubits that run on from the layout may be emitted. -/
theorem State.Tracks.emitSwaps (h : s.Tracks d costs emitted) {layout : Layout}
    (hlayout : layout.Consistent d.size) (hruns : Runs d s.layout.mapping swaps layout.mapping)
    (hswaps : ∀ op ∈ swaps, op.isSwap = true)
    (hused : ∀ op ∈ swaps, ∀ q, op.Touches q → q ∈ s.used) :
    (swaps.foldl (fun s op => State.emitSwap s costs op) { s with layout := layout }).Tracks d costs
      (emitted ++ swaps) := by
  rw [foldl_emitSwap]
  refine ⟨h.moves.append hlayout hruns hused, ?_, ?_⟩
  · simp [h.total]
  · have hcount : swaps.countP Operation.isSwap = swaps.length := List.countP_eq_length.2 hswaps
    rw [List.countP_append, hcount, Nat.mul_add, ← h.swapTotal, Nat.mul_comm costs.swap,
      ← costs.sum_price_of_isSwap hswaps]

/-- A gate that realizes the pair may be emitted. -/
theorem State.Tracks.emitGate (h : s.Tracks d costs emitted) {gate : Operation}
    (hcontrol : p.control ∈ s.used) (htarget : p.target ∈ s.used)
    (hu : s.layout.mapping[p.control]? = some u) (hv : s.layout.mapping[p.target]? = some v)
    (hgate : Gate.Realizes d p u v gate) :
    EmitsFor d costs p emitted s (s.emit costs gate) := by
  refine ⟨[], gate, rfl, List.forall_mem_nil _, hgate.not_swap, hgate.operands, ?_, ?_, ?_⟩
  · have hcan := hgate.canRun h.moves.layout.mapping hu hv
    exact h.moves.gate hcan hgate.not_swap hgate.operands hcontrol htarget
  · simp [State.emit, h.total]
  · simp [State.emit, h.swapTotal, hgate.not_swap]

/-- Swaps may be emitted before those of the pair. -/
theorem EmitsFor.after_swaps (h : EmitsFor d costs p (emitted ++ swaps) near s')
    (hops : near.ops = s.ops ++ swaps) (hswaps : ∀ op ∈ swaps, op.isSwap = true) :
    EmitsFor d costs p emitted s s' := by
  obtain ⟨more, gate, hops', hmore, hgate, hoperands, htracks⟩ := h
  refine ⟨swaps ++ more, gate, ?_, ?_, hgate, hoperands, ?_⟩
  · rw [hops', hops]
    simp
  · exact List.forall_mem_append.2 ⟨hswaps, hmore⟩
  · rw [List.append_assoc] at htracks
    rw [List.append_assoc]
    exact htracks

end Emitting

/-! ## Meeting a dependency -/

section Meeting

variable {d : Device} {costs : CostModel} {p : Pair} {s s' : State} {emitted : List Operation}
  {seenAgain : Bool} {route : List Nat}

/-- Bringing the target closer emits swaps, or none if they go into the first mapping. -/
theorem of_approach (hs : s.Tracks d costs emitted) (hroute : route.IsChain d.Coupled)
    (h : approach d costs route s = .ok s') :
    ∃ swaps, s'.ops = s.ops ++ swaps ∧ (∀ op ∈ swaps, op.isSwap = true) ∧
      s'.Tracks d costs (emitted ++ swaps) := by
  unfold approach at h
  split_ifs at h with hshort
  · cases h
    exact ⟨[], by simp, List.forall_mem_nil _, by simpa using hs⟩
  · obtain ⟨held, hheld, h⟩ := bind_eq_ok_iff.1 h
    obtain ⟨⟨ops, layout⟩, hchain, h⟩ := bind_eq_ok_iff.1 h
    obtain ⟨hlayout, hruns, hswaps, htouch, hon⟩ :=
      of_chain hs.moves.layout (fun hop hhop => of_mem_laterHops hroute hhop) hchain
    have hmem := fun {q} => mem_holders_iff (q := q) hs.moves.layout hheld
    split_ifs at h with huntouched
    · -- nothing on the route has been used
      obtain ⟨initial, hinitial, h⟩ := bind_eq_ok_iff.1 h
      cases h
      have hunused : ∀ q, s.layout.On route q → q ∉ s.used := by
        intro q hq
        have hfree := List.all_eq_true.1 huntouched q (hmem.2 hq)
        simpa using hfree
      have hmoves := tracks_fold hs.moves hlayout hruns htouch hon hunused hinitial
      refine ⟨[], by simp [State.use], List.forall_mem_nil _, ?_⟩
      rw [List.append_nil]
      exact ⟨hmoves.mono fun _ hq => mem_used_use.2 (Or.inr hq), hs.total, hs.swapTotal⟩
    · -- the chain is emitted, and it touches only what the route holds
      cases h
      have hused : ∀ op ∈ ops, ∀ q, op.Touches q → q ∈ (s.use held).used := by
        intro op hop q hq
        exact mem_used_use.2 (Or.inl (hmem.2 (htouch op hop q hq)))
      obtain ⟨hmoves, htotal, hswapTotal⟩ := (hs.use held).emitSwaps hlayout hruns hswaps hused
      refine ⟨ops, ?_, hswaps, hmoves, htotal, hswapTotal⟩
      rw [foldl_emitSwap]
      rfl

/-- Exchanging the qubits of a pair turns it round. -/
theorem of_exchangeLogical {n u v : Nat} {l layout : Layout} (hl : l.Consistent n)
    (hu : l.mapping[p.control]? = some u) (hv : l.mapping[p.target]? = some v)
    (h : l.exchangeLogical p.control p.target = some layout) :
    layout.Consistent n ∧ layout.mapping = exchange l.mapping p.control p.target ∧
      layout.mapping[p.control]? = some v ∧ layout.mapping[p.target]? = some u := by
  have hclt := (List.getElem?_eq_some_iff.1 hu).1
  have htlt := (List.getElem?_eq_some_iff.1 hv).1
  obtain ⟨l', hl', hmap, -, hcons⟩ := hl.exchangeLogical hu hv
  obtain rfl : l' = layout := Option.some.inj (hl'.symm.trans h)
  refine ⟨hcons, hmap, ?_, ?_⟩
  · rw [hmap, getElem?_exchange hclt htlt, Equiv.swap_apply_left, hv]
  · rw [hmap, getElem?_exchange hclt htlt, Equiv.swap_apply_right, hu]

section Settling

variable {u v : Nat} {layout : Layout} (hs : s.Tracks d costs emitted)
  (hu : s.layout.mapping[p.control]? = some u) (hv : s.layout.mapping[p.target]? = some v)

include hs hu hv

/-- A gate may be emitted before its pair is marked as used. -/
theorem emitsFor_gate {gate : Operation} (hgate : Gate.Realizes d p u v gate) :
    EmitsFor d costs p emitted s ((s.emit costs gate).use [p.control, p.target]) :=
  (hs.use [p.control, p.target]).emitGate (mem_used_use.2 (by simp)) (mem_used_use.2 (by simp))
    hu hv hgate

/-- A pair that runs against its edge may be turned round by a swap. -/
theorem emitsFor_swap (hvu : d.hasEdge v u = true)
    (hlayout : s.layout.exchangeLogical p.control p.target = some layout) :
    EmitsFor d costs p emitted s
      (({ s.emitSwap costs (.swap p.control p.target) with layout := layout }.emit costs
        (.cnot p.control p.target)).use [p.control, p.target]) := by
  have hl := hs.moves.layout
  have hcoupled : d.Coupled u v := Or.inr (d.hasEdge_iff.1 hvu)
  obtain ⟨hcons, hmap, hu', hv'⟩ := of_exchangeLogical hl hu hv hlayout
  have hruns : Runs d s.layout.mapping [.swap p.control p.target] layout.mapping := by
    rw [hmap]
    exact .cons (canRun_of_allows hl.mapping hu hv hcoupled) (.nil _)
  have hswaps : ∀ op ∈ [Operation.swap p.control p.target], op.isSwap = true := by
    simp [Operation.isSwap]
  have hcontrol : p.control ∈ (s.use [p.control, p.target]).used := mem_used_use.2 (by simp)
  have htarget : p.target ∈ (s.use [p.control, p.target]).used := mem_used_use.2 (by simp)
  have hturned := (hs.use [p.control, p.target]).emitSwaps hcons hruns hswaps
    (mem_of_touches_singleton hcontrol htarget)
  have hemits := hturned.emitGate hcontrol htarget hu' hv' (Gate.realizes_cnot hvu)
  exact hemits.after_swaps rfl hswaps

/-- A pair that nothing has used may be turned round from the start. -/
theorem emitsFor_exchange (hvu : d.hasEdge v u = true)
    (hlayout : s.layout.exchangeLogical p.control p.target = some layout)
    (hcontrol : p.control ∉ s.used) (htarget : p.target ∉ s.used) :
    EmitsFor d costs p emitted s
      (({ s with layout := layout, initial := exchange s.initial p.control p.target }.emit costs
        (.cnot p.control p.target)).use [p.control, p.target]) := by
  obtain ⟨-, -, hu', hv'⟩ := of_exchangeLogical hs.moves.layout hu hv hlayout
  obtain ⟨l, hl, -, hmoves⟩ := hs.moves.exchangeUnused hu hv hcontrol htarget
  obtain rfl : l = layout := Option.some.inj (hl.symm.trans hlayout)
  have htracks : State.Tracks d costs
      { s with layout := l, initial := exchange s.initial p.control p.target } emitted :=
    ⟨hmoves, hs.total, hs.swapTotal⟩
  exact emitsFor_gate htracks hu' hv' (Gate.realizes_cnot hvu)

end Settling

/-- On coupled qubits the gate is emitted, after a swap if the pair has to be turned round at a
price. -/
theorem of_settle (hs : s.Tracks d costs emitted) (h : settle d costs seenAgain p s = .ok s') :
    EmitsFor d costs p emitted s (s'.use [p.control, p.target]) := by
  obtain ⟨u, hu, h⟩ := bind_eq_ok_iff.1 h
  obtain ⟨v, hv, h⟩ := bind_eq_ok_iff.1 h
  rw [lookup_eq_ok_iff] at hu hv
  split_ifs at h with huv hvu hagain hused
  · cases h
    exact emitsFor_gate hs hu hv (Gate.realizes_cnot huv)
  · obtain ⟨layout, hlayout, h⟩ := bind_eq_ok_iff.1 h
    cases h
    exact emitsFor_swap hs hu hv hvu (lookup_eq_ok_iff.1 hlayout)
  · obtain ⟨layout, hlayout, h⟩ := bind_eq_ok_iff.1 h
    cases h
    simp only [Bool.or_eq_true, List.contains_iff_mem, not_or] at hused
    exact emitsFor_exchange hs hu hv hvu (lookup_eq_ok_iff.1 hlayout) hused.1 hused.2
  · cases h
    exact emitsFor_gate hs hu hv (Gate.realizes_rev huv hvu)

theorem eq_of_bridge? {m : Nat} (h : bridge? d route = some m) : ∃ x y, route = [x, m, y] := by
  unfold bridge? at h
  split at h
  next x m' y =>
    split_ifs at h
    cases h
    exact ⟨x, y, rfl⟩
  next => cases h

/-- A dependency is met over a bridge, which is for pairs that do not come again, or on coupled
qubits once the target has been brought next to the control. -/
theorem meet_cases (h : meet d costs seenAgain p s = .ok s') :
    ∃ u v route, s.layout.mapping[p.control]? = some u ∧ s.layout.mapping[p.target]? = some v ∧
      d.route u v = .ok route ∧
      ((seenAgain = false ∧ ∃ m held, bridge? d route = some m ∧
          holders s.layout route = .ok held ∧
          s' = ((s.use held).emit costs (.longCnot p.control p.target m)).use
            [p.control, p.target]) ∨
        ∃ near met, approach d costs route s = .ok near ∧
          settle d costs seenAgain p near = .ok met ∧ s' = met.use [p.control, p.target]) := by
  simp only [meet, bind_eq_ok_iff, lookup_eq_ok_iff, ofDevice_eq_ok_iff] at h
  obtain ⟨u, hu, v, hv, route, hroute, h⟩ := h
  refine ⟨u, v, route, hu, hv, hroute, ?_⟩
  split at h
  next m hbridge =>
    obtain ⟨held, hheld, met, hmet, h⟩ := by simpa only [bind_eq_ok_iff] using h
    cases hmet
    exact Or.inl ⟨rfl, m, held, hbridge, hheld, (pure_eq_ok_iff.1 h).symm⟩
  next =>
    obtain ⟨near, hnear, met, hmet, h⟩ := by simpa only [bind_eq_ok_iff] using h
    exact Or.inr ⟨near, met, hnear, hmet, (pure_eq_ok_iff.1 h).symm⟩

/-- **Meeting a dependency emits swaps and then one gate on its pair**, and the state keeps track. -/
theorem of_meet (hs : s.Tracks d costs emitted) (h : meet d costs seenAgain p s = .ok s') :
    EmitsFor d costs p emitted s s' := by
  obtain ⟨u, v, route, hu, hv, hroute, hcases⟩ := meet_cases h
  have hl := hs.moves.layout.mapping
  obtain ⟨k, -, hisRoute⟩ := Device.isRoute_of_route hroute
  rcases hcases with ⟨-, m, held, hbridge, -, rfl⟩ | ⟨near, met, hnear, hmet, rfl⟩
  · obtain ⟨x, y, rfl⟩ := eq_of_bridge? hbridge
    exact emitsFor_gate (hs.use held) hu hv ⟨rfl, rfl, Gate.coupled_of_isRoute hisRoute⟩
  · obtain ⟨swaps, hops, hswaps, htracks⟩ := of_approach hs hisRoute.linked hnear
    exact (of_settle htracks hmet).after_swaps hops hswaps

end Meeting

/-! ## Runs and solutions -/

section Solutions

variable {d : Device} {costs : CostModel} {deps : Dependencies}

/-- A run meets the dependencies one by one and keeps track of all operations. -/
theorem of_run {pairs : List Pair} (hpairs : List.Forall₂ (fun dep p => dep.pairs = [p]) deps pairs)
    {s final : State} {emitted : List Operation} {steps : List Step}
    (hs : s.Tracks d costs emitted)
    (h : run d costs ((deps.map Dependency.callPoint).zip pairs) s = .ok (steps, final)) :
    List.Forall₂ (fun dep step => step.Meets dep) deps steps ∧
      final.Tracks d costs (emitted ++ steps.flatMap Step.ops) := by
  induction hpairs generalizing s emitted steps with
  | nil =>
    cases h
    refine ⟨.nil, ?_⟩
    simpa using hs
  | @cons dep p deps pairs hp _ ih =>
    obtain ⟨met, hmet, h⟩ := bind_eq_ok_iff.1 h
    obtain ⟨⟨steps, last⟩, hrest, h⟩ := bind_eq_ok_iff.1 h
    cases h
    -- the operations of a step are those emitted since it began
    obtain ⟨swaps, gate, hops, hswaps, hgate, hoperands, htracks⟩ :=
      @of_meet d costs p { s with ops := [] } met emitted _ ⟨hs.moves, hs.total, hs.swapTotal⟩ hmet
    rw [List.nil_append] at hops
    obtain ⟨hmeets, hfinal⟩ := ih htracks hrest
    refine ⟨.cons ⟨rfl, p, swaps, gate, hp, hops, hswaps, hgate, hoperands⟩ hmeets, ?_⟩
    rw [List.flatMap_cons, hops, ← List.append_assoc]
    exact hfinal

/-- The run starts with nothing emitted. -/
theorem State.tracks_start {initial : List Nat} (h : IsArrangement d.size initial) :
    (State.start ⟨initial, inverse initial⟩).Tracks d costs [] :=
  ⟨⟨⟨h, rfl⟩, h, .nil _, List.forall_mem_nil _⟩, rfl, rfl⟩

/-- A solution is what a run from the given mapping ends with. -/
theorem build_cases {initial : List Nat} {s : Solution} {stats : Stats}
    (h : build d costs deps initial = .ok (s, stats)) :
    IsArrangement d.size initial ∧ ∃ pairs final, deps.pairs = .ok pairs ∧
      run d costs ((deps.map Dependency.callPoint).zip pairs)
        (.start ⟨initial, inverse initial⟩) = .ok (s.steps, final) ∧
      s.initial = final.initial ∧ s.cost = final.total ∧ s.cost < 2 ^ 32 ∧
      stats.totalSwapCost = final.swapTotal := by
  obtain ⟨⟨⟩, hcheck, h⟩ := bind_eq_ok_iff.1 h
  obtain ⟨⟨⟩, -, h⟩ := bind_eq_ok_iff.1 h
  obtain ⟨pairs, hpairs, h⟩ := bind_eq_ok_iff.1 h
  obtain ⟨layout, hlayout, h⟩ := bind_eq_ok_iff.1 h
  obtain ⟨⟨steps, final⟩, hrun, h⟩ := bind_eq_ok_iff.1 h
  obtain ⟨cost, hcost, h⟩ := bind_eq_ok_iff.1 h
  obtain ⟨swapCost, hswapCost, h⟩ := bind_eq_ok_iff.1 h
  cases h
  obtain ⟨-, rfl⟩ := ofMapping_eq_ok_iff.1 hlayout
  obtain ⟨hfits, rfl⟩ := narrowCost_eq_ok_iff.1 hcost
  obtain ⟨-, rfl⟩ := narrowCost_eq_ok_iff.1 hswapCost
  exact ⟨checkMapping_eq_ok_iff.1 hcheck, pairs, final, hpairs, hrun, rfl, rfl, hfits, rfl⟩

/-- A solution solves the dependencies, and the statistics give the price of its swaps. -/
theorem solves_of_build {initial : List Nat} {s : Solution} {stats : Stats}
    (h : build d costs deps initial = .ok (s, stats)) :
    Solves d costs deps s ∧ stats.totalSwapCost = costs.swap * s.numSwaps := by
  obtain ⟨hinitial, pairs, final, hpairs, hrun, hfirst, hcost, hfits, hswapCost⟩ := build_cases h
  obtain ⟨hmeets, hfinal⟩ :=
    of_run (Dependencies.pairs_eq_ok_iff.1 hpairs) (State.tracks_start hinitial) hrun
  rw [List.nil_append] at hfinal
  refine ⟨⟨?_, ?_, hmeets, hcost.trans hfinal.total, hfits⟩, hswapCost.trans hfinal.swapTotal⟩
  · rw [hfirst]
    exact hfinal.moves.initial
  · rw [hfirst]
    exact ⟨_, hfinal.moves.runs⟩

end Solutions

/-- **Path-guided solutions replay at their cost**, their steps meet the dependencies one by one in
order, and the statistics give the price of the swaps that were emitted. -/
theorem build_replays {d : Device} {costs : CostModel} {deps : Dependencies} {initial : List Nat}
    {s : Solution} {stats : Stats} (hdistinct : (deps.map Dependency.callPoint).Nodup)
    (h : build d costs deps initial = .ok (s, stats)) :
    replay d deps s costs = .ok s.cost ∧
      List.Forall₂ (fun dep step => step.Meets dep) deps s.steps ∧
      stats.totalSwapCost = costs.swap * s.numSwaps := by
  obtain ⟨hsolves, hswapCost⟩ := solves_of_build h
  exact ⟨hsolves.replay_eq hdistinct, hsolves.meets, hswapCost⟩

/-- Five dependencies on a path of five qubits: a chain moves into the first mapping, a pair is
turned round by a swap, a pair gets a bridge, and a chain is emitted. -/
theorem build_replays_path :
    let d := Device.ofNodup 5 [(0, 1), (2, 1), (2, 3), (4, 3)] (by decide) (by decide)
    let deps : Dependencies := [⟨0, [⟨0, 3⟩]⟩, ⟨1, [⟨3, 0⟩]⟩, ⟨2, [⟨3, 0⟩]⟩, ⟨3, [⟨0, 2⟩]⟩,
      ⟨4, [⟨1, 4⟩]⟩]
    ∃ s stats, build d .standard deps [0, 1, 2, 3, 4] = .ok (s, stats) ∧
      s.initial = [0, 2, 3, 1, 4] ∧ s.cost = 24 ∧ replay d deps s .standard = .ok s.cost ∧
      List.Forall₂ (fun dep step => step.Meets dep) deps s.steps ∧
      stats.totalSwapCost = CostModel.standard.swap * s.numSwaps := by
  intro d deps
  have hbuild : build d .standard deps [0, 1, 2, 3, 4] = .ok (⟨[0, 2, 3, 1, 4], 24,
      [⟨0, [.cnot 0 3]⟩, ⟨1, [.swap 3 0, .cnot 3 0]⟩, ⟨2, [.cnot 3 0]⟩, ⟨3, [.longCnot 0 2 2]⟩,
        ⟨4, [.swap 4 2, .cnot 1 4]⟩]⟩, ⟨14, 1, 1⟩) := by
    decide +kernel
  exact ⟨_, _, hbuild, rfl, rfl, build_replays (by decide) hbuild⟩

end QubitAllocation.PathGuided
