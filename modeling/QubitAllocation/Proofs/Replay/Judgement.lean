import QubitAllocation.Proofs.Dependencies
import QubitAllocation.Proofs.Replay.Run
import QubitAllocation.Proofs.Total

/-!
# What replay accepts

`Accepted d deps s costs c` states what it means for a solution to be right, without running
anything: the first mapping is an arrangement of the device's qubits, every dependency has one pair
and a call point of its own, the steps meet the call points in some order, all operations can be
run one after the other from the first mapping, every step ends in a gate on the pair of its call
point, and `c` is the sum of the prices and fits 32 bits. A swap, a gate against an edge and a gate
over a bridge have the prices of the cost model, and a gate along an edge is free.

`replay_eq_ok_iff` says that replay answers `c` exactly on those solutions. Replay takes the met
call points out of a table of pending pairs. The table has at most as many entries as there are
dependencies, and fewer if a call point occurs twice; that all call points are distinct and all of
them are met follows by counting.

A solution that meets the dependencies in their own order, each by some swaps and then one gate, and
reports the sum of the prices (`Solves`) replays at its cost (`Solves.replay_eq`).
-/

set_option autoImplicit false

namespace QubitAllocation

open Arrangement Outcome

theorem CostModel.total_append (costs : CostModel) (ops ops' : List Operation) :
    costs.total (ops ++ ops') = costs.total ops + costs.total ops' := by
  simp only [CostModel.total, total_eq_sum, List.map_append, List.sum_append]

/-! ## The judgement -/

namespace Replay

/-- The operations end in a gate on the pair. -/
def EndsIn (ops : List Operation) (p : Pair) : Prop :=
  ∃ front op, ops = front ++ [op] ∧ op.isSwap = false ∧ op.operands = (p.control, p.target)

/-- The solution is right for the dependencies and costs `c`. -/
structure Accepted (d : Device) (deps : Dependencies) (s : Solution) (costs : CostModel)
    (c : Nat) : Prop where
  initial : s.initial.Perm (List.range d.size)
  single : ∀ dep ∈ deps, ∃ p, dep.pairs = [p]
  distinct : (deps.map Dependency.callPoint).Nodup
  covered : (s.steps.map Step.callPoint).Perm (deps.map Dependency.callPoint)
  runs : ∃ M, Runs d s.initial s.ops M
  ends : ∀ step ∈ s.steps, ∃ dep ∈ deps, ∃ p,
    dep.callPoint = step.callPoint ∧ dep.pairs = [p] ∧ EndsIn step.ops p
  cost : c = (s.ops.map fun
    | .cnot _ _ => 0
    | .rev _ _ => costs.reverse
    | .swap _ _ => costs.swap
    | .longCnot _ _ _ => costs.longCnot).sum
  fits : c < 2 ^ 32

/-- The prices are those of the cost model. -/
theorem sum_prices (costs : CostModel) (ops : List Operation) :
    (ops.map fun
      | .cnot _ _ => 0
      | .rev _ _ => costs.reverse
      | .swap _ _ => costs.swap
      | .longCnot _ _ _ => costs.longCnot).sum = (ops.map costs.price).sum :=
  rfl

theorem Accepted.cost_eq {d : Device} {deps : Dependencies} {s : Solution} {costs : CostModel}
    {c : Nat} (h : Accepted d deps s costs c) : c = (s.ops.map costs.price).sum :=
  h.cost.trans (sum_prices costs s.ops)

/-- A step ends in a gate on the pair of the dependency at its call point. -/
theorem Accepted.endsIn {d : Device} {deps : Dependencies} {s : Solution} {costs : CostModel}
    {c : Nat} (h : Accepted d deps s costs c) {step : Step} (hstep : step ∈ s.steps)
    {dep : Dependency} (hdep : dep ∈ deps) (hcall : dep.callPoint = step.callPoint) {p : Pair}
    (hp : dep.pairs = [p]) : EndsIn step.ops p := by
  obtain ⟨dep', hdep', q, hcall', hq, hend⟩ := h.ends step hstep
  have hsame : dep = dep' :=
    List.inj_on_of_nodup_map h.distinct hdep hdep' (hcall.trans hcall'.symm)
  subst hsame
  rw [hp] at hq
  cases hq
  exact hend

end Replay

/-! ## The checks of replay -/

theorem narrowCost_eq_ok_iff {t c : Nat} : narrowCost t = .ok c ↔ t < 2 ^ 32 ∧ t = c := by
  rw [narrowCost, ite_eq_ok_iff, Except.ok.injEq, Text.wordMax]
  exact and_congr_left fun _ => by omega

theorem narrowCost_of_le {t : Nat} (h : 2 ^ 32 ≤ t) : narrowCost t = .error (.costOverflow t) := by
  rw [narrowCost, if_neg]
  rw [Text.wordMax]
  omega

theorem checkMapping_eq_ok_iff {M : List Nat} {n : Nat} :
    checkMapping M n = .ok () ↔ IsArrangement n M := by
  unfold checkMapping
  split_ifs with hlen hperm
  · constructor
    · intro h
      cases h
    · intro h
      exact absurd h.length_eq hlen
  · rw [not_not] at hlen
    subst hlen
    exact ⟨fun _ => isPermutation_iff.1 hperm, fun _ => rfl⟩
  · rw [not_not] at hlen
    subst hlen
    exact ⟨fun h => (by cases h), fun h => absurd (isPermutation_iff.2 h) hperm⟩

theorem ofMapping_eq_ok_iff {M : List Nat} {l : Layout} :
    Layout.ofMapping M = .ok l ↔ IsArrangement M.length M ∧ l = ⟨M, inverse M⟩ := by
  rw [Layout.ofMapping, bind_eq_ok_iff]
  constructor
  · rintro ⟨⟨⟩, hcheck, hl⟩
    exact ⟨checkMapping_eq_ok_iff.1 hcheck, (pure_eq_ok_iff.1 hl).symm⟩
  · rintro ⟨hM, rfl⟩
    exact ⟨(), checkMapping_eq_ok_iff.2 hM, rfl⟩

namespace Replay

theorem checkFinal_eq_ok_iff {p : Pair} {step : Step} :
    checkFinal p step = .ok () ↔ EndsIn step.ops p := by
  unfold checkFinal
  cases hlast : step.ops.getLast? with
  | none =>
    rw [List.getLast?_eq_none_iff] at hlast
    constructor
    · intro h
      cases h
    · rintro ⟨front, op, hops, -⟩
      rw [hlast] at hops
      simp at hops
  | some op =>
    obtain ⟨front, hops⟩ := List.getLast?_eq_some_iff.1 hlast
    show (if _ then Except.ok () else _) = _ ↔ _
    rw [ite_eq_ok_iff, Bool.and_eq_true, Bool.not_eq_true', beq_iff_eq]
    constructor
    · rintro ⟨⟨hswap, hpair⟩, -⟩
      exact ⟨front, op, hops, hswap, hpair⟩
    · rintro ⟨front', op', hops', hswap, hpair⟩
      obtain ⟨-, rfl⟩ := List.concat_inj.1 (by simpa using hops.symm.trans hops')
      exact ⟨⟨hswap, hpair⟩, rfl⟩

theorem checkCount_eq_ok_iff {deps : Dependencies} {steps : List Step} :
    checkCount deps steps = .ok () ↔ steps.length = deps.length := by
  rw [checkCount, ite_eq_ok_iff]
  exact ⟨fun h => h.1, fun h => ⟨h, rfl⟩⟩

theorem checkCovered_eq_ok_iff {pending : List (Nat × Pair)} :
    checkCovered pending = .ok () ↔ pending = [] := by
  unfold checkCovered
  cases hmin : (pending.map Prod.fst).min? with
  | none =>
    rw [List.min?_eq_none_iff, List.map_eq_nil_iff] at hmin
    exact ⟨fun _ => hmin, fun _ => rfl⟩
  | some k =>
    constructor
    · intro h
      cases h
    · rintro rfl
      cases hmin

/-! ## The loop over steps -/

theorem runStep_eq_ok_iff {d : Device} {costs : CostModel} {st st' : State} {step : Step} :
    runStep d costs st step = .ok st' ↔ ∃ p, st.pending.lookup step.callPoint = some p ∧
      EndsIn step.ops p ∧ ∃ now,
        step.ops.foldlM (runOp d costs step.callPoint) st.toProgress = .ok now ∧
        st' = ⟨now, st.pending.filter fun entry => entry.1 != step.callPoint⟩ := by
  unfold runStep
  cases st.pending.lookup step.callPoint with
  | none => exact ⟨fun h => (by cases h), fun ⟨_, h, _⟩ => (by cases h)⟩
  | some p =>
    show (_ >>= _) = _ ↔ _
    rw [bind_eq_ok_iff]
    constructor
    · rintro ⟨now, hnow, h⟩
      obtain ⟨⟨⟩, hfinal, h⟩ := bind_eq_ok_iff.1 h
      exact ⟨p, rfl, checkFinal_eq_ok_iff.1 hfinal, now, hnow, (pure_eq_ok_iff.1 h).symm⟩
    · rintro ⟨p', hp', hends, now, hnow, rfl⟩
      cases hp'
      exact ⟨now, hnow, bind_eq_ok_iff.2 ⟨(), checkFinal_eq_ok_iff.2 hends, rfl⟩⟩

section Steps

variable {d : Device} {costs : CostModel} {st st' : State} {steps : List Step}

/-- What has been met when the loop answers: its steps took distinct call points out of the pending
ones, each step ended in the pair of its call point, and all operations were run in order. -/
theorem of_foldlM_runStep (hnd : (st.pending.map Prod.fst).Nodup)
    (h : steps.foldlM (runStep d costs) st = .ok st') :
    (st.pending.map Prod.fst).Perm (steps.map Step.callPoint ++ st'.pending.map Prod.fst) ∧
      (∀ step ∈ steps, ∃ p, (step.callPoint, p) ∈ st.pending ∧ EndsIn step.ops p) ∧
      Runs d st.layout.mapping (steps.flatMap Step.ops) st'.layout.mapping := by
  -- a met call point leaves the table, so the later steps cannot meet it again
  induction steps generalizing st with
  | nil =>
    rw [foldlM_nil_eq_ok_iff] at h
    subst h
    exact ⟨List.Perm.refl _, List.forall_mem_nil _, .nil _⟩
  | cons step steps ih =>
    obtain ⟨st₁, hstep, hrest⟩ := foldlM_cons_eq_ok_iff.1 h
    obtain ⟨p, hp, hends, now, hnow, rfl⟩ := runStep_eq_ok_iff.1 hstep
    rw [Dependencies.lookup_eq_some_iff_mem hnd] at hp
    obtain ⟨hkeys, hall, hruns⟩ := ih (Dependencies.nodup_keys_filter hnd _) hrest
    refine ⟨?_, ?_, ?_⟩
    · exact (Dependencies.keys_perm_cons_filter hnd hp).trans (hkeys.cons _)
    · rw [List.forall_mem_cons]
      refine ⟨⟨p, hp, hends⟩, fun step' hstep' => ?_⟩
      obtain ⟨p', hp', hends'⟩ := hall step' hstep'
      exact ⟨p', (List.mem_filter.1 hp').1, hends'⟩
    · rw [List.flatMap_cons, runs_append_iff]
      exact ⟨_, (runs_of_foldlM_runOp hnow).1, hruns⟩

/-- The loop spends the prices of all operations. -/
theorem spent_of_foldlM_runStep (h : steps.foldlM (runStep d costs) st = .ok st') :
    st'.spent = st.spent + costs.total (steps.flatMap Step.ops) := by
  induction steps generalizing st with
  | nil =>
    rw [foldlM_nil_eq_ok_iff] at h
    subst h
    rfl
  | cons step steps ih =>
    obtain ⟨st₁, hstep, hrest⟩ := foldlM_cons_eq_ok_iff.1 h
    obtain ⟨-, -, -, now, hnow, rfl⟩ := runStep_eq_ok_iff.1 hstep
    have hops := (runs_of_foldlM_runOp hnow).2
    rw [ih hrest, hops, Nat.add_assoc, List.flatMap_cons, CostModel.total_append]

/-- The loop answers, with nothing left pending, if the steps meet the pending call points and
their operations can be run. -/
theorem foldlM_runStep_of_runs {M : List Nat}
    (hkeys : (st.pending.map Prod.fst).Perm (steps.map Step.callPoint))
    (hnd : (st.pending.map Prod.fst).Nodup)
    (hends : ∀ step ∈ steps, ∀ p, (step.callPoint, p) ∈ st.pending → EndsIn step.ops p)
    (hruns : Runs d st.layout.mapping (steps.flatMap Step.ops) M) :
    ∃ st', steps.foldlM (runStep d costs) st = .ok st' ∧ st'.pending = [] := by
  induction steps generalizing st with
  | nil =>
    rw [List.map_nil, List.perm_nil, List.map_eq_nil_iff] at hkeys
    exact ⟨st, rfl, hkeys⟩
  | cons step steps ih =>
    rw [List.flatMap_cons, runs_append_iff] at hruns
    obtain ⟨N, hops, hrest⟩ := hruns
    obtain ⟨now, hnow, hmap⟩ := foldlM_runOp_of_runs costs step.callPoint hops
    have hmem : step.callPoint ∈ st.pending.map Prod.fst :=
      hkeys.mem_iff.2 List.mem_cons_self
    obtain ⟨⟨k, p⟩, hp, hk⟩ := List.mem_map.1 hmem
    dsimp only at hk
    subst hk
    have hleft := (Dependencies.keys_perm_cons_filter hnd hp).symm.trans hkeys
    rw [List.map_cons, List.perm_cons] at hleft
    obtain ⟨st', hst', hpending⟩ :=
      @ih ⟨now, st.pending.filter fun entry => entry.1 != step.callPoint⟩ hleft
        (Dependencies.nodup_keys_filter hnd _)
        (fun step' hstep' p' hp' =>
          hends step' (List.mem_cons_of_mem step hstep') p' (List.mem_filter.1 hp').1)
        (hmap.symm ▸ hrest)
    refine ⟨st', foldlM_cons_eq_ok_iff.2 ⟨_, ?_, hst'⟩, hpending⟩
    exact runStep_eq_ok_iff.2 ⟨p, (Dependencies.lookup_eq_some_iff_mem hnd).2 hp,
      hends step List.mem_cons_self p hp, now, hnow, rfl⟩

end Steps

end Replay

/-! ## Replay decides the judgement -/

section Main

variable {d : Device} {deps : Dependencies} {s : Solution} {costs : CostModel} {c : Nat}

open Replay

/-- Everything that replay checks, one after the other. -/
theorem replay_eq_ok_iff_checks :
    replay d deps s costs = .ok c ↔ IsArrangement d.size s.initial ∧
      ∃ table, deps.table = .ok table ∧ s.steps.length = deps.length ∧
        (∃ st, s.steps.foldlM (runStep d costs) ⟨⟨⟨s.initial, inverse s.initial⟩, 0⟩, table⟩ =
          .ok st ∧ st.pending = []) ∧
        costs.total s.ops < 2 ^ 32 ∧ costs.total s.ops = c := by
  simp only [replay, bind_eq_ok_iff]
  constructor
  · rintro ⟨⟨⟩, hmap, table, htable, ⟨⟩, hcount, l, hl, st, hst, ⟨⟩, hcov, hcost⟩
    obtain ⟨-, rfl⟩ := ofMapping_eq_ok_iff.1 hl
    rw [spent_of_foldlM_runStep hst, Nat.zero_add] at hcost
    exact ⟨checkMapping_eq_ok_iff.1 hmap, table, htable, checkCount_eq_ok_iff.1 hcount,
      ⟨st, hst, checkCovered_eq_ok_iff.1 hcov⟩, narrowCost_eq_ok_iff.1 hcost⟩
  · rintro ⟨hmap, table, htable, hcount, ⟨st, hst, hcov⟩, hcost⟩
    have hlen : IsArrangement s.initial.length s.initial := by
      rw [hmap.length_eq]
      exact hmap
    have hspent := spent_of_foldlM_runStep hst
    rw [Nat.zero_add] at hspent
    exact ⟨(), checkMapping_eq_ok_iff.2 hmap, table, htable, (), checkCount_eq_ok_iff.2 hcount,
      _, ofMapping_eq_ok_iff.2 ⟨hlen, rfl⟩, st, hst, (), checkCovered_eq_ok_iff.2 hcov,
      narrowCost_eq_ok_iff.2 (hspent ▸ hcost)⟩

/-- What replay accepts is right. -/
theorem accepted_of_replay (h : replay d deps s costs = .ok c) : Accepted d deps s costs c := by
  obtain ⟨hmap, table, htable, hcount, ⟨st, hst, hcov⟩, hfits, hcost⟩ :=
    replay_eq_ok_iff_checks.1 h
  obtain ⟨hisTable, hsingle⟩ := Dependencies.isTable_of_table htable
  obtain ⟨hkeys, hends, hruns⟩ := of_foldlM_runStep hisTable.nodup hst
  rw [hcov, List.map_nil, List.append_nil] at hkeys
  -- the table has as many call points as there are steps, and so as there are dependencies
  have hperm : (table.map Prod.fst).Perm (deps.map Dependency.callPoint) := by
    apply (hisTable.nodup.subperm fun k hk => (hisTable.key_iff k).1 hk).perm_of_length_le
    rw [hkeys.length_eq, List.length_map, List.length_map, hcount]
  refine ⟨hmap, hsingle, hperm.nodup_iff.1 hisTable.nodup, hkeys.symm.trans hperm,
    ⟨_, hruns⟩, ?_, ?_, hcost ▸ hfits⟩
  · intro step hstep
    obtain ⟨p, hp, hend⟩ := hends step hstep
    obtain ⟨dep, hdep, hcall, hpair⟩ := hisTable.source _ hp
    exact ⟨dep, hdep, p, hcall, hpair, hend⟩
  · rw [← hcost, sum_prices, CostModel.total, total_eq_sum]

/-- What is right is accepted by replay. -/
theorem replay_of_accepted (h : Accepted d deps s costs c) : replay d deps s costs = .ok c := by
  obtain ⟨table, htable⟩ := Dependencies.exists_table h.single
  obtain ⟨hisTable, -⟩ := Dependencies.isTable_of_table htable
  obtain ⟨M, hruns⟩ := h.runs
  have hperm : (table.map Prod.fst).Perm (deps.map Dependency.callPoint) :=
    (List.perm_ext_iff_of_nodup hisTable.nodup h.distinct).2 hisTable.key_iff
  have hends : ∀ step ∈ s.steps, ∀ p, (step.callPoint, p) ∈ table → EndsIn step.ops p := by
    intro step hstep p hp
    obtain ⟨dep, hdep, hcall, hpair⟩ := hisTable.source _ hp
    exact h.endsIn hstep hdep hcall hpair
  have hcost : costs.total s.ops = c := by
    rw [h.cost_eq, CostModel.total, total_eq_sum]
  apply replay_eq_ok_iff_checks.2
  refine ⟨h.initial, table, htable, ?_, ?_, hcost ▸ h.fits, hcost⟩
  · have hlen := h.covered.length_eq
    rwa [List.length_map, List.length_map] at hlen
  · exact foldlM_runStep_of_runs (hperm.trans h.covered.symm) hisTable.nodup hends hruns

/-- **Replay is the judgement**: it answers `c` on a solution exactly if the solution is right for
the dependencies and costs `c`. -/
theorem replay_eq_ok_iff (d : Device) (deps : Dependencies) (s : Solution) (costs : CostModel)
    (c : Nat) : replay d deps s costs = .ok c ↔ Accepted d deps s costs c :=
  ⟨accepted_of_replay, replay_of_accepted⟩

end Main

/-! ## Steps of swaps and one gate -/

/-- The step stands at the dependency's call point and has some swaps and then one gate, on the
dependency's pair. -/
def Step.Meets (step : Step) (dep : Dependency) : Prop :=
  step.callPoint = dep.callPoint ∧ ∃ p swaps gate, dep.pairs = [p] ∧
    step.ops = swaps ++ [gate] ∧ (∀ op ∈ swaps, op.isSwap = true) ∧ gate.isSwap = false ∧
    gate.operands = (p.control, p.target)

theorem CostModel.price_of_isSwap (costs : CostModel) {op : Operation} (h : op.isSwap = true) :
    costs.price op = costs.swap := by
  cases op with
  | swap a b => rfl
  | cnot a b => cases h
  | rev a b => cases h
  | longCnot a b w => cases h

/-- Swaps cost their number. -/
theorem CostModel.sum_price_of_isSwap (costs : CostModel) {ops : List Operation}
    (h : ∀ op ∈ ops, op.isSwap = true) : (ops.map costs.price).sum = ops.length * costs.swap := by
  rw [List.sum_eq_card_nsmul _ costs.swap, List.length_map, smul_eq_mul]
  intro c hc
  obtain ⟨op, hop, rfl⟩ := List.mem_map.1 hc
  exact costs.price_of_isSwap (h op hop)

/-- Operations cost no less than their swaps. -/
theorem CostModel.countP_isSwap_mul_le (costs : CostModel) (ops : List Operation) :
    ops.countP Operation.isSwap * costs.swap ≤ (ops.map costs.price).sum := by
  induction ops with
  | nil => simp
  | cons op ops ih =>
    rw [List.map_cons, List.sum_cons]
    cases hswap : op.isSwap with
    | false =>
      rw [List.countP_cons_of_neg (by simp [hswap])]
      omega
    | true =>
      rw [List.countP_cons_of_pos hswap, Nat.add_mul, Nat.one_mul, costs.price_of_isSwap hswap]
      omega

/-- Replay accepts steps that meet the dependencies, once each, and can be run. -/
theorem replay_of_meets {d : Device} {deps : Dependencies} {s : Solution} {costs : CostModel}
    (hinitial : IsArrangement d.size s.initial) (hsingle : ∀ dep ∈ deps, ∃ p, dep.pairs = [p])
    (hdistinct : (deps.map Dependency.callPoint).Nodup)
    (hcovered : (s.steps.map Step.callPoint).Perm (deps.map Dependency.callPoint))
    (hmeets : ∀ step ∈ s.steps, ∃ dep ∈ deps, step.Meets dep)
    (hruns : ∃ M, Replay.Runs d s.initial s.ops M)
    (hcost : s.cost = (s.ops.map costs.price).sum) (hfits : s.cost < 2 ^ 32) :
    replay d deps s costs = .ok s.cost := by
  apply replay_of_accepted
  refine ⟨hinitial, hsingle, hdistinct, hcovered, hruns, ?_,
    hcost.trans (Replay.sum_prices costs s.ops).symm, hfits⟩
  intro step hstep
  obtain ⟨dep, hdep, hcall, p, swaps, gate, hp, hops, -, hgate, hpair⟩ := hmeets step hstep
  exact ⟨dep, hdep, p, hcall.symm, hp, swaps, gate, hops, hgate, hpair⟩

/-- The solution can be run, meets the dependencies in their order and costs what it says. -/
structure Solves (d : Device) (costs : CostModel) (deps : Dependencies) (s : Solution) : Prop where
  initial : IsArrangement d.size s.initial
  runs : ∃ M, Replay.Runs d s.initial s.ops M
  meets : List.Forall₂ (fun dep step => step.Meets dep) deps s.steps
  cost : s.cost = (s.ops.map costs.price).sum
  fits : s.cost < 2 ^ 32

/-- The steps have the call points in order. -/
theorem Solves.map_callPoint {d : Device} {costs : CostModel} {deps : Dependencies} {s : Solution}
    (h : Solves d costs deps s) :
    s.steps.map Step.callPoint = deps.map Dependency.callPoint := by
  rw [← List.forall₂_eq_eq_eq, List.forall₂_map_left_iff, List.forall₂_map_right_iff]
  exact (h.meets.imp fun _ _ hm => hm.1).flip

theorem Solves.replay_eq {d : Device} {costs : CostModel} {deps : Dependencies} {s : Solution}
    (h : Solves d costs deps s) (hdistinct : (deps.map Dependency.callPoint).Nodup) :
    replay d deps s costs = .ok s.cost := by
  apply replay_of_meets h.initial _ hdistinct (h.map_callPoint ▸ List.Perm.refl _) _ h.runs h.cost
    h.fits
  · intro dep hdep
    obtain ⟨step, -, -, p, _, _, hp, -⟩ := exists_of_forall₂ h.meets.flip hdep
    exact ⟨p, hp⟩
  · exact fun step hstep => exists_of_forall₂ h.meets hstep

end QubitAllocation
