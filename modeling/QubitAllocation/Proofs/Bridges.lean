import QubitAllocation.Proofs.Direct
import QubitAllocation.Proofs.Exact.Optimality
import QubitAllocation.Proofs.Greedy.Soundness
import QubitAllocation.Proofs.PathGuided.Soundness

/-!
# Strategies bridge only what is apart

The optimality of the dynamic programme is about solutions that use no bridge between coupled qubits
(`Exact.BridgesApart`). Every strategy is of that kind. A direct solution has a bridge only where
there is no edge either way, a greedy one has none at all, and the path-guided one takes a bridge
over a shortest route of two hops.

Path-guided runs change the first mapping after bridges have been emitted. What they change are
qubits that nothing has used, so the bridges still join the same places (`BridgesApart.agree`).
-/

set_option autoImplicit false

namespace QubitAllocation

open Arrangement Outcome Replay Search

/-- The operation goes over a bridge. -/
def Operation.isBridge : Operation → Bool
  | longCnot _ _ _ => true
  | _ => false

theorem Operation.isBridge_of_isSwap {op : Operation} (h : op.isSwap = true) :
    op.isBridge = false := by
  cases op with
  | swap a b => rfl
  | cnot a b => rfl
  | rev a b => rfl
  | longCnot a b w => cases h

/-! ## Putting operations together -/

namespace Exact

variable {d : Device} {M N : List Nat} {op : Operation} {ops ops' : List Operation}

theorem bridgesApart_of_no_bridge (h : ∀ op ∈ ops, op.isBridge = false) :
    BridgesApart d M ops := by
  rintro front a b w later rfl
  cases h (.longCnot a b w) (by simp)

/-- The first operation joins qubits that are apart, and the others do after it. -/
theorem bridgesApart_cons_iff : BridgesApart d M (op :: ops) ↔
    (∀ a b w, op = .longCnot a b w → ∀ u v, M[a]? = some u → M[b]? = some v → ¬ d.Coupled u v) ∧
      (CanRun d M op → BridgesApart d (after M op) ops) := by
  constructor
  · intro h
    refine ⟨?_, fun hcan => ?_⟩
    · rintro a b w rfl
      exact h [] a b w ops rfl M (.nil M)
    · rw [← List.singleton_append] at h
      exact h.right (.cons hcan (.nil _))
  · rintro ⟨hfirst, hlater⟩ front a b w later hops N hruns
    -- a bridge is the first operation or one of the others
    cases front with
    | nil =>
      cases hops
      obtain rfl := runs_nil_iff.1 hruns
      exact hfirst a b w rfl
    | cons op' front =>
      cases hops
      obtain ⟨hcan, hrest⟩ := runs_cons_iff.1 hruns
      exact hlater hcan front a b w later rfl N hrest

theorem bridgesApart_bridge {a b w u v : Nat} (hu : M[a]? = some u) (hv : M[b]? = some v)
    (hnot : ¬ d.Coupled u v) : BridgesApart d M [.longCnot a b w] := by
  refine bridgesApart_cons_iff.2 ⟨?_, fun _ => bridgesApart_of_no_bridge (by simp)⟩
  rintro _ _ _ ⟨⟩ u' v' hu' hv'
  rw [hu] at hu'
  rw [hv] at hv'
  cases hu'
  cases hv'
  exact hnot

/-- Operations that run on from where others lead keep bridges apart with them. -/
theorem BridgesApart.append (h : BridgesApart d M ops) (hruns : Runs d M ops N)
    (h' : BridgesApart d N ops') : BridgesApart d M (ops ++ ops') := by
  -- the run is what leads from the first mapping to the one where the others start
  induction hruns with
  | nil M => exact h'
  | cons hcan _ ih =>
    rw [bridgesApart_cons_iff] at h
    rw [List.cons_append, bridgesApart_cons_iff]
    exact ⟨h.1, fun _ => ih (h.2 hcan) h'⟩

/-- Only the places of the touched qubits matter. -/
theorem BridgesApart.agree {kept : List Nat} (h : BridgesApart d M ops)
    (hkept : ∀ op ∈ ops, ∀ q, op.Touches q → q ∈ kept) (hsame : ∀ q ∈ kept, N[q]? = M[q]?) :
    BridgesApart d N ops := by
  rintro front a b w later rfl N' hruns u v hu hv
  rw [List.forall_mem_append, List.forall_mem_cons] at hkept
  obtain ⟨hfront, hbridge, -⟩ := hkept
  -- what is run before the bridge runs alike from the other mapping
  obtain ⟨M', hruns', hsame'⟩ := hruns.agree hfront fun q hq => (hsame q hq).symm
  apply h front a b w later rfl M' hruns' u v
  · rw [hsame' a (hbridge a (Or.inl rfl)), hu]
  · rw [hsame' b (hbridge b (Or.inr rfl)), hv]

end Exact

/-! ## Direct solutions -/

/-- A pair gets a bridge only where there is no edge either way. -/
theorem Gate.not_coupled_of_between {d : Device} {p : Pair} {u v a b w : Nat}
    (h : Gate.between d p u v = .ok (.longCnot a b w)) :
    a = p.control ∧ b = p.target ∧ ¬ d.Coupled u v := by
  unfold Gate.between at h
  split_ifs at h with huv hvu
  · cases h
  · cases h
  · obtain ⟨route, -, h⟩ := bind_eq_ok_iff.1 h
    rw [d.hasEdge_iff] at huv hvu
    split at h
    · cases h
      exact ⟨rfl, rfl, not_or.2 ⟨huv, hvu⟩⟩
    · cases h

namespace Direct

open Exact

variable {d : Device} {M : List Nat}

theorem bridgesApart_of_step {dep : Dependency} {st : Step} (h : step d M dep = .ok st) :
    BridgesApart d M st.ops := by
  obtain ⟨p, -, h⟩ := bind_eq_ok_iff.1 h
  obtain ⟨gate, hgate, h⟩ := bind_eq_ok_iff.1 h
  obtain ⟨u, hu, hgate⟩ := bind_eq_ok_iff.1 hgate
  obtain ⟨v, hv, hgate⟩ := bind_eq_ok_iff.1 hgate
  cases h
  rw [lookup_eq_ok_iff] at hu hv
  cases gate with
  | longCnot a b w =>
    obtain ⟨rfl, rfl, hnot⟩ := Gate.not_coupled_of_between hgate
    exact bridgesApart_bridge hu hv hnot
  | swap a b => exact bridgesApart_of_no_bridge (by simp [Operation.isBridge])
  | cnot a b => exact bridgesApart_of_no_bridge (by simp [Operation.isBridge])
  | rev a b => exact bridgesApart_of_no_bridge (by simp [Operation.isBridge])

theorem bridgesApart_of_steps {deps : Dependencies} {steps : List Step}
    (hM : IsArrangement d.size M)
    (h : List.Forall₂ (fun dep st => step d M dep = .ok st) deps steps) :
    BridgesApart d M (steps.flatMap Step.ops) := by
  induction h with
  | nil => exact bridgesApart_of_no_bridge (by simp)
  | cons hst _ ih =>
    rw [List.flatMap_cons]
    exact (bridgesApart_of_step hst).append (of_step hM hst).2 ih

/-- **A direct solution bridges only what is apart.** -/
theorem bridgesApart_of_build {costs : CostModel} {deps : Dependencies} {s : Solution}
    (h : build d costs deps M = .ok s) : BridgesApart d s.initial s.ops := by
  obtain ⟨hM, hsteps, rfl, -⟩ := build_cases h
  exact bridgesApart_of_steps hM hsteps

end Direct

/-! ## Greedy solutions -/

theorem Step.MeetsDirectly.isBridge_eq_false {step : Step} {dep : Dependency}
    (h : step.MeetsDirectly dep) : ∀ op ∈ step.ops, op.isBridge = false := by
  obtain ⟨-, p, swaps, gate, -, hops, hall, hgate⟩ := h
  intro op hop
  rw [hops, List.mem_append, List.mem_singleton] at hop
  rcases hop with hop | rfl
  · exact Operation.isBridge_of_isSwap (hall op hop)
  · rcases hgate with rfl | rfl
    · rfl
    · rfl

/-- **A greedy solution has no bridge.** -/
theorem Greedy.bridgesApart_of_solveCircuit {d : Device} {costs : CostModel}
    {placement : Placement} {c : Circuit} {deps : Dependencies} {outcome : Greedy.Outcome}
    (hcarries : deps.validate d.size = .ok () → c.Carries deps)
    (h : Greedy.solveCircuit d costs placement c deps = .ok outcome) :
    Exact.BridgesApart d outcome.solution.initial outcome.solution.ops := by
  apply Exact.bridgesApart_of_no_bridge
  intro op hop
  obtain ⟨step, hstep, hop⟩ := List.mem_flatMap.1 hop
  obtain ⟨dep, -, hmeets⟩ := (of_solveCircuit hcarries h).2 step hstep
  exact hmeets.isBridge_eq_false op hop

/-! ## Path-guided solutions -/

namespace PathGuided

open Exact

section Meeting

variable {d : Device} {costs : CostModel} {p : Pair} {s s' : State} {emitted : List Operation}
  {seenAgain : Bool} {route : List Nat}

/-- Bringing the target closer keeps the used qubits where they started. -/
theorem initial_of_approach (hs : s.Tracks d costs emitted) (hroute : route.IsChain d.Coupled)
    (h : approach d costs route s = .ok s') :
    ∀ q ∈ s.used, q ∈ s'.used ∧ s'.initial[q]? = s.initial[q]? := by
  intro q hq
  unfold approach at h
  split_ifs at h with hshort
  · cases h
    exact ⟨hq, rfl⟩
  · obtain ⟨held, hheld, h⟩ := bind_eq_ok_iff.1 h
    obtain ⟨⟨ops, layout⟩, hchain, h⟩ := bind_eq_ok_iff.1 h
    obtain ⟨hlayout, -, -, -, hon⟩ :=
      of_chain hs.moves.layout (fun hop hhop => of_mem_laterHops hroute hhop) hchain
    split_ifs at h with huntouched
    · -- the qubits that are entered stand on the route, where nothing is used
      obtain ⟨initial, hinitial, h⟩ := bind_eq_ok_iff.1 h
      cases h
      refine ⟨mem_used_use.2 (Or.inr hq), ?_⟩
      apply (of_fold hlayout hs.moves.initial.length_eq hinitial q).2
      intro hstands
      have hmem := (mem_holders_iff hs.moves.layout hheld).2 ((hon q).1 hstands)
      have hfree := List.all_eq_true.1 huntouched q hmem
      simp [hq] at hfree
    · cases h
      rw [foldl_emitSwap]
      exact ⟨mem_used_use.2 (Or.inr hq), rfl⟩

/-- On coupled qubits no bridge is emitted, and the used qubits stay where they started. -/
theorem no_bridge_of_settle (hs : s.Tracks d costs emitted)
    (h : settle d costs seenAgain p s = .ok s') :
    (∃ more, s'.ops = s.ops ++ more ∧ ∀ op ∈ more, op.isBridge = false) ∧
      ∀ q ∈ s.used, s'.initial[q]? = s.initial[q]? := by
  obtain ⟨u, hu, h⟩ := bind_eq_ok_iff.1 h
  obtain ⟨v, hv, h⟩ := bind_eq_ok_iff.1 h
  rw [lookup_eq_ok_iff] at hu hv
  split_ifs at h with huv hvu hagain hused
  · cases h
    exact ⟨⟨[.cnot p.control p.target], rfl, by simp [Operation.isBridge]⟩, fun _ _ => rfl⟩
  · obtain ⟨layout, -, h⟩ := bind_eq_ok_iff.1 h
    cases h
    refine ⟨⟨[.swap p.control p.target, .cnot p.control p.target], ?_, ?_⟩, fun _ _ => rfl⟩
    · simp [State.emit, State.emitSwap]
    · simp [Operation.isBridge]
  · -- the pair is turned round from the start, and neither of its qubits is used
    obtain ⟨layout, -, h⟩ := bind_eq_ok_iff.1 h
    cases h
    refine ⟨⟨[.cnot p.control p.target], rfl, by simp [Operation.isBridge]⟩, fun q hq => ?_⟩
    simp only [Bool.or_eq_true, List.contains_iff_mem, not_or] at hused
    have hl := hs.moves.layout.mapping
    have hlen := hs.moves.initial.length_eq
    apply getElem?_exchange_of_ne
    · rw [hlen]
      exact hl.place_lt hu
    · rw [hlen]
      exact hl.place_lt hv
    · exact ne_of_mem_of_not_mem hq hused.1
    · exact ne_of_mem_of_not_mem hq hused.2
  · cases h
    exact ⟨⟨[.rev p.control p.target], rfl, by simp [Operation.isBridge]⟩, fun _ _ => rfl⟩

/-- The ends of a shortest route over a bridge are not coupled. -/
theorem not_coupled_of_bridge {u v m : Nat} (hroute : d.route u v = .ok route)
    (hbridge : bridge? d route = some m) : ¬ d.Coupled u v := by
  intro hcoupled
  obtain ⟨k, hdepth, hisRoute⟩ := Device.isRoute_of_route hroute
  obtain ⟨x, y, rfl⟩ := eq_of_bridge? hbridge
  have hlen := hisRoute.length_eq
  have hone := hdepth.2 1 (.step .refl (d.mem_neighbours_iff.2 hcoupled))
  simp only [List.length_cons, List.length_nil] at hlen
  omega

/-- **Meeting a dependency keeps bridges apart**: a new one joins qubits that are not coupled, and
those emitted before still join what they joined. -/
theorem bridgesApart_of_meet (hs : s.Tracks d costs emitted)
    (hapart : BridgesApart d s.initial emitted) (h : meet d costs seenAgain p s = .ok s') :
    ∃ more, s'.ops = s.ops ++ more ∧ s'.Tracks d costs (emitted ++ more) ∧
      BridgesApart d s'.initial (emitted ++ more) := by
  obtain ⟨swaps, gate, hops, -, -, -, htracks⟩ := of_meet hs h
  refine ⟨swaps ++ [gate], hops, htracks, ?_⟩
  obtain ⟨N, hbefore, -⟩ := runs_append_iff.1 htracks.moves.runs
  obtain ⟨u, v, route, hu, hv, hroute, hcases⟩ := meet_cases h
  have hl := hs.moves.layout.mapping
  rcases hcases with ⟨-, m, held, hbridge, -, rfl⟩ | ⟨near, met, hnear, hmet, rfl⟩
  · -- the bridge is emitted where the layout has the pair, and nothing else changes
    have hmore : swaps ++ [gate] = [.longCnot p.control p.target m] :=
      (List.append_cancel_left hops).symm
    have hnot := not_coupled_of_bridge hroute hbridge
    rw [hmore]
    exact BridgesApart.append hapart hs.moves.runs (bridgesApart_bridge hu hv hnot)
  · obtain ⟨k, -, hisRoute⟩ := Device.isRoute_of_route hroute
    obtain ⟨chain, hchain, hswaps, hnearTracks⟩ := of_approach hs hisRoute.linked hnear
    have hkeep := initial_of_approach hs hisRoute.linked hnear
    obtain ⟨⟨more, hmore, hgates⟩, hkeep'⟩ := no_bridge_of_settle hnearTracks hmet
    have hsplit : s.ops ++ (swaps ++ [gate]) = s.ops ++ (chain ++ more) := by
      rw [← hops, ← List.append_assoc, ← hchain]
      exact hmore
    -- what was used before has not been moved, so the bridges before stay apart
    have hsame : ∀ q ∈ s.used, met.initial[q]? = s.initial[q]? := by
      intro q hq
      rw [hkeep' q (hkeep q hq).1, (hkeep q hq).2]
    refine BridgesApart.append (hapart.agree hs.moves.used hsame) hbefore ?_
    rw [List.append_cancel_left hsplit]
    apply bridgesApart_of_no_bridge
    rw [List.forall_mem_append]
    exact ⟨fun op hop => Operation.isBridge_of_isSwap (hswaps op hop), hgates⟩

end Meeting

/-- A run keeps bridges apart. -/
theorem bridgesApart_of_run {d : Device} {costs : CostModel} {entries : List (Nat × Pair)}
    {s final : State} {emitted : List Operation} {steps : List Step}
    (hs : s.Tracks d costs emitted) (hapart : BridgesApart d s.initial emitted)
    (h : run d costs entries s = .ok (steps, final)) :
    BridgesApart d final.initial (emitted ++ steps.flatMap Step.ops) := by
  induction entries generalizing s emitted steps with
  | nil =>
    cases h
    simpa using hapart
  | cons entry entries ih =>
    obtain ⟨met, hmet, h⟩ := bind_eq_ok_iff.1 h
    obtain ⟨⟨steps, last⟩, hrest, h⟩ := bind_eq_ok_iff.1 h
    cases h
    -- the operations of a step are those emitted since it began
    obtain ⟨more, hops, htracks, hmore⟩ :=
      @bridgesApart_of_meet d costs entry.2 { s with ops := [] } met emitted _
        ⟨hs.moves, hs.total, hs.swapTotal⟩ hapart hmet
    rw [List.nil_append] at hops
    have hlater := ih htracks hmore hrest
    rw [List.flatMap_cons, hops, ← List.append_assoc]
    exact hlater

/-- **A path-guided solution bridges only what is apart.** -/
theorem bridgesApart_of_build {d : Device} {costs : CostModel} {deps : Dependencies}
    {initial : List Nat} {s : Solution} {stats : Stats}
    (h : build d costs deps initial = .ok (s, stats)) : BridgesApart d s.initial s.ops := by
  obtain ⟨hinitial, pairs, final, -, hrun, hfirst, -⟩ := build_cases h
  rw [hfirst]
  exact bridgesApart_of_run (State.tracks_start hinitial) (bridgesApart_of_no_bridge (by simp)) hrun

end PathGuided

end QubitAllocation
