import QubitAllocation.Proofs.Metric
import QubitAllocation.Proofs.PathGuided.Components
import QubitAllocation.Proofs.Safety.Greedy
import QubitAllocation.Proofs.Safety.PathGuided
import QubitAllocation.Proofs.Totals.Basic

/-!
# Totals while a strategy runs

Totals are added up in 64 bits before they are narrowed to 32. No dependency costs more than the
number of qubits times the largest price (`Device.ceiling`), because a route has fewer hops than the
device has qubits. So the totals of a run stay below `2 ^ 64` as long as the number of dependencies
times the number of qubits is at most `2 ^ 32`: those of direct allocation (`Direct.totalsBelow`),
and both totals of path-guided allocation (`PathGuided.totalsBelow`), also half-way through a
dependency, when the target has been brought near and the gate is still to come. For the same reason
the chains of path-guided allocation and their swaps can be counted in 32 bits
(`PathGuided.chainsBelow`).

What is added up is the exact price of the steps, so both report what they should. Path-guided
allocation narrows a second total, that of the swaps. It is part of the first one and never refused
(`PathGuided.exists_narrow_swapTotal`).
-/

set_option autoImplicit false

namespace QubitAllocation

open Arrangement Outcome

/-! ## What one dependency can cost -/

/-- No dependency is met at a higher price: a route has fewer hops than the device has qubits. -/
def Device.ceiling (d : Device) : Nat := d.size * Text.wordMax

/-- Totals of `m` dependencies fit 64 bits if `m` times the number of qubits fits 32 bits. -/
theorem Device.mul_ceiling_lt {d : Device} {m : Nat} (h : m * d.size ≤ 2 ^ 32) :
    m * d.ceiling < 2 ^ 64 := by
  calc m * (d.size * Text.wordMax)
      = m * d.size * Text.wordMax := (Nat.mul_assoc ..).symm
    _ ≤ 2 ^ 32 * Text.wordMax := Nat.mul_le_mul_right _ h
    _ < 2 ^ 64 := by decide

/-- Hops along a route and one price more stay below the ceiling. -/
theorem Device.hops_le_ceiling {d : Device} {costs : CostModel} {k c : Nat} (hcosts : costs.InWords)
    (hk : k < d.size) (hc : c ≤ Text.wordMax) : k * costs.swap + c ≤ d.ceiling := by
  have hmul : k * costs.swap ≤ k * Text.wordMax := Nat.mul_le_mul_left k hcosts.swap_le
  calc k * costs.swap + c ≤ k * Text.wordMax + Text.wordMax := Nat.add_le_add hmul hc
    _ = (k + 1) * Text.wordMax := by ring
    _ ≤ d.size * Text.wordMax := Nat.mul_le_mul_right _ hk

theorem Device.wordMax_le_ceiling {d : Device} (hpos : 0 < d.size) : Text.wordMax ≤ d.ceiling :=
  Nat.le_mul_of_pos_left _ hpos

/-- A route has no more qubits than the device. -/
theorem Device.length_route_le {d : Device} {u v : Nat} {route : List Nat}
    (h : d.route u v = .ok route) : route.length ≤ d.size := by
  obtain ⟨k, hk, hroute⟩ := d.isRoute_of_route h
  have hlt := d.dist_lt (v := v) (Device.lt_of_route h).1
  rw [(Device.isDepth_iff.1 hk).2] at hlt
  rw [hroute.length_eq]
  exact hlt

/-- Dependencies that are valid name qubits. -/
theorem Dependencies.size_pos {deps : Dependencies} {n : Nat} (hvalid : deps.validate n = .ok ())
    (hne : deps ≠ []) : 0 < n := by
  obtain ⟨dep, rest, rfl⟩ := List.exists_cons_of_ne_nil hne
  obtain ⟨p, hp⟩ := Dependencies.single_of_validate hvalid dep List.mem_cons_self
  exact Nat.zero_lt_of_lt (Dependencies.bounds_of_mem hvalid List.mem_cons_self hp).1

/-! ## Direct allocation -/

namespace Direct

variable {d : Device} {costs : CostModel} {deps : Dependencies} {initial : List Nat}

/-- The steps of a direct allocation, before they are priced. -/
def emitted (d : Device) (deps : Dependencies) (initial : List Nat) :
    Except AllocError (List Step) := do
  checkMapping initial d.size
  deps.validate d.size
  deps.mapM (step d initial)

/-- After any number of dependencies the running total is below a bound. -/
def TotalsBelow (bound : Nat) (d : Device) (costs : CostModel) (deps : Dependencies)
    (initial : List Nat) : Prop :=
  ∀ front steps, front <+: deps → front.mapM (step d initial) = .ok steps →
    costs.total (steps.flatMap Step.ops) < bound

theorem unbilled_emitted (d : Device) (deps : Dependencies) (initial : List Nat) :
    Unbilled (emitted d deps initial) := by
  refine (unbilled_checkMapping _ _).bind fun _ => (deps.unbilled_validate _).bind fun _ => ?_
  exact unbilled_mapM fun dep => dep.unbilled_pair.bind fun p =>
    (Gate.unbilled_under d initial p).bind fun _ => unbilled_pure _

theorem bills_build (d : Device) (costs : CostModel) (deps : Dependencies) (initial : List Nat) :
    Bills costs (emitted d deps initial) (build d costs deps initial) := by
  have hbuild : build d costs deps initial = emitted d deps initial >>= fun steps =>
      narrowCost (costs.total (steps.flatMap Step.ops)) >>= fun cost =>
        .ok ⟨initial, cost, steps⟩ := by
    simp only [build, emitted, bind_assoc]
    rfl
  have hmap : (emitted d deps initial).map id = emitted d deps initial := by
    cases emitted d deps initial <;> rfl
  rw [hbuild]
  nth_rewrite 1 [← hmap]
  refine bills_of_narrow (unbilled_emitted d deps initial) (fun _ _ => rfl) ?_
  exact fun steps _ _ => ⟨_, rfl, rfl, rfl⟩

/-- Each dependency becomes one gate. -/
theorem total_le_of_mapM (hcosts : costs.InWords) {steps : List Step}
    (h : deps.mapM (step d initial) = .ok steps) :
    costs.total (steps.flatMap Step.ops) ≤ deps.length * Text.wordMax := by
  rw [mapM_eq_ok_iff] at h
  induction h with
  | nil => exact Nat.zero_le _
  | @cons dep step deps steps hstep _ ih =>
    obtain ⟨p, -, hstep⟩ := bind_eq_ok_iff.1 hstep
    obtain ⟨gate, -, hstep⟩ := bind_eq_ok_iff.1 hstep
    cases hstep
    have hgate : costs.total (Step.mk dep.callPoint [gate]).ops ≤ Text.wordMax :=
      hcosts.price_le gate
    rw [List.flatMap_cons, CostModel.total_append, List.length_cons, Nat.succ_mul]
    omega

/-- **No running total of a direct allocation leaves 64 bits.** -/
theorem totalsBelow (hcosts : costs.InWords) (hvalid : deps.validate d.size = .ok ())
    (hsmall : deps.length * d.size ≤ 2 ^ 32) (initial : List Nat) :
    TotalsBelow (2 ^ 64) d costs deps initial := by
  intro front steps hfront hsteps
  by_cases hne : deps = []
  · subst hne
    cases List.prefix_nil.1 hfront
    cases hsteps
    exact Nat.two_pow_pos 64
  · calc costs.total (steps.flatMap Step.ops)
        ≤ front.length * Text.wordMax := total_le_of_mapM hcosts hsteps
      _ ≤ deps.length * d.ceiling := Nat.mul_le_mul hfront.length_le
          (Device.wordMax_le_ceiling (Dependencies.size_pos hvalid hne))
      _ < 2 ^ 64 := Device.mul_ceiling_lt hsmall

end Direct

/-! ## Path-guided allocation -/

namespace PathGuided

variable {d : Device} {costs : CostModel} {deps : Dependencies} {initial : List Nat}

/-- The steps of a path-guided allocation and the state after them, before they are priced. -/
def emitted (d : Device) (costs : CostModel) (deps : Dependencies) (initial : List Nat) :
    Except AllocError (List Step × State) := do
  checkMapping initial d.size
  deps.validate d.size
  let pairs ← deps.pairs
  let layout ← Layout.ofMapping initial
  run d costs ((deps.map Dependency.callPoint).zip pairs) (.start layout)

/-- The states in which a run adds to its totals: those between two dependencies, and those in which
the target of a pair has been brought near. -/
inductive Counts (d : Device) (costs : CostModel) (entries : List (Nat × Pair)) (start : State) :
    State → Prop
  | between {rest : List (Nat × Pair)} {s : State} : Passes d costs entries start rest s →
      Counts d costs entries start s
  | near {callPoint u v : Nat} {p : Pair} {rest : List (Nat × Pair)} {route : List Nat}
      {s s' : State} : Passes d costs entries start ((callPoint, p) :: rest) s →
      s.layout.mapping[p.control]? = some u → s.layout.mapping[p.target]? = some v →
      d.route u v = .ok route → approach d costs route { s with ops := [] } = .ok s' →
      Counts d costs entries start s'

/-- Both totals are below a bound all the time. -/
def TotalsBelow (bound : Nat) (d : Device) (costs : CostModel) (deps : Dependencies)
    (initial : List Nat) : Prop :=
  ∀ pairs layout s, checkMapping initial d.size = .ok () → deps.pairs = .ok pairs →
    Layout.ofMapping initial = .ok layout →
    Counts d costs ((deps.map Dependency.callPoint).zip pairs) (.start layout) s →
    s.total < bound ∧ s.swapTotal < bound

/-- The numbers of chains and of their swaps are below a bound all the time. -/
def ChainsBelow (bound : Nat) (d : Device) (costs : CostModel) (deps : Dependencies)
    (initial : List Nat) : Prop :=
  ∀ pairs layout s, deps.pairs = .ok pairs → Layout.ofMapping initial = .ok layout →
    Counts d costs ((deps.map Dependency.callPoint).zip pairs) (.start layout) s →
    s.chains < bound ∧ s.chainSwaps < bound

section Meeting

variable {route : List Nat} {s s' : State} {seenAgain : Bool} {p : Pair}

/-- A chain has one swap for each hop. -/
theorem swaps_of_chain (costs : CostModel) {hops : List (Nat × Nat)} {l l' : Layout}
    {ops : List Operation} (h : chain d hops l = .ok (ops, l')) :
    ops.length = hops.length ∧ (ops.map costs.price).sum = hops.length * costs.swap := by
  induction hops generalizing l ops with
  | nil =>
    cases h
    simp
  | cons hop hops ih =>
    obtain ⟨a, -, h⟩ := bind_eq_ok_iff.1 h
    obtain ⟨b, -, h⟩ := bind_eq_ok_iff.1 h
    obtain ⟨moved, -, h⟩ := bind_eq_ok_iff.1 h
    obtain ⟨⟨rest, final⟩, hrest, h⟩ := bind_eq_ok_iff.1 h
    cases h
    obtain ⟨hlen, hsum⟩ := ih hrest
    rw [List.length_cons, List.length_cons, hlen, List.map_cons, List.sum_cons, hsum, Nat.succ_mul]
    exact ⟨rfl, Nat.add_comm _ _⟩

theorem length_laterHops (route : List Nat) : (laterHops route).length = route.length - 2 := by
  simp [laterHops]
  omega

/-- Bringing the target near costs at most a swap for each hop but the first. -/
theorem total_approach_le (h : approach d costs route s = .ok s') :
    s'.total ≤ s.total + (route.length - 2) * costs.swap := by
  unfold approach at h
  split_ifs at h
  · cases h
    exact Nat.le_add_right _ _
  · obtain ⟨held, -, h⟩ := bind_eq_ok_iff.1 h
    obtain ⟨⟨ops, layout⟩, hchain, h⟩ := bind_eq_ok_iff.1 h
    split_ifs at h
    · obtain ⟨initial, -, h⟩ := bind_eq_ok_iff.1 h
      cases h
      exact Nat.le_add_right _ _
    · cases h
      obtain ⟨-, hprice⟩ := swaps_of_chain costs hchain
      rw [length_laterHops] at hprice
      rw [foldl_emitSwap, hprice]
      exact Nat.le_refl _

/-- The gate, and a swap before it, cost at most one price. -/
theorem total_settle_le (hcosts : costs.InWords) (h : settle d costs seenAgain p s = .ok s') :
    s'.total ≤ s.total + Text.wordMax := by
  obtain ⟨u, -, h⟩ := bind_eq_ok_iff.1 h
  obtain ⟨v, -, h⟩ := bind_eq_ok_iff.1 h
  split_ifs at h
  · cases h
    exact Nat.le_add_right _ _
  · obtain ⟨layout, -, h⟩ := bind_eq_ok_iff.1 h
    cases h
    exact Nat.add_le_add_left hcosts.swap_le _
  · obtain ⟨layout, -, h⟩ := bind_eq_ok_iff.1 h
    cases h
    exact Nat.le_add_right _ _
  · cases h
    exact Nat.add_le_add_left hcosts.reverse_le _

/-- **Meeting a dependency costs no more than the ceiling**, and what it costs half-way is no more
either. -/
theorem total_meet_le (hcosts : costs.InWords) (hl : s.layout.Consistent d.size)
    (h : meet d costs seenAgain p s = .ok s') : s'.total ≤ s.total + d.ceiling := by
  obtain ⟨u, v, route, hu, hv, hroute, hcases⟩ := meet_cases h
  have hulen := hl.mapping.entry_lt hu
  have hlen := Device.length_route_le hroute
  rcases hcases with ⟨-, m, held, -, -, rfl⟩ | ⟨near, met, hnear, hmet, rfl⟩
  · have hprice := hcosts.longCnot_le.trans (Device.wordMax_le_ceiling (Nat.zero_lt_of_lt hulen))
    exact Nat.add_le_add_left hprice _
  · have happroach := total_approach_le hnear
    have hsettle : met.total ≤ near.total + Text.wordMax := total_settle_le hcosts hmet
    -- all hops but the first are swaps, and one price more pays for the gate
    have hhops := Device.hops_le_ceiling (d := d) (k := route.length - 2) hcosts (by omega) le_rfl
    show met.total ≤ _
    omega

/-- Bringing the target near counts at most one chain, which is not empty, with at most a swap for
each hop but the first. -/
theorem chains_approach_le (h : approach d costs route s = .ok s') :
    s'.chains + s.chainSwaps ≤ s.chains + s'.chainSwaps ∧
      s'.chainSwaps ≤ s.chainSwaps + (route.length - 2) := by
  unfold approach at h
  split_ifs at h
  · cases h
    exact ⟨Nat.le_refl _, Nat.le_add_right _ _⟩
  next hlong =>
    obtain ⟨held, -, h⟩ := bind_eq_ok_iff.1 h
    obtain ⟨⟨ops, layout⟩, hchain, h⟩ := bind_eq_ok_iff.1 h
    split_ifs at h
    · obtain ⟨initial, -, h⟩ := bind_eq_ok_iff.1 h
      cases h
      exact ⟨Nat.le_refl _, Nat.le_add_right _ _⟩
    · cases h
      obtain ⟨hlen, -⟩ := swaps_of_chain costs hchain
      rw [length_laterHops] at hlen
      rw [foldl_emitSwap]
      simp only [State.use]
      omega

/-- The gate of a pair and a swap before it belong to no chain. -/
theorem chains_settle (h : settle d costs seenAgain p s = .ok s') :
    s'.chains = s.chains ∧ s'.chainSwaps = s.chainSwaps := by
  obtain ⟨u, -, h⟩ := bind_eq_ok_iff.1 h
  obtain ⟨v, -, h⟩ := bind_eq_ok_iff.1 h
  split_ifs at h
  · cases h
    exact ⟨rfl, rfl⟩
  · obtain ⟨layout, -, h⟩ := bind_eq_ok_iff.1 h
    cases h
    exact ⟨rfl, rfl⟩
  · obtain ⟨layout, -, h⟩ := bind_eq_ok_iff.1 h
    cases h
    exact ⟨rfl, rfl⟩
  · cases h
    exact ⟨rfl, rfl⟩

/-- **Meeting a dependency counts fewer swaps than there are qubits**, and no empty chain. -/
theorem chains_meet_le (h : meet d costs seenAgain p s = .ok s') :
    s'.chains + s.chainSwaps ≤ s.chains + s'.chainSwaps ∧
      s'.chainSwaps ≤ s.chainSwaps + (d.size - 2) := by
  obtain ⟨u, v, route, -, -, hroute, hcases⟩ := meet_cases h
  have hlen := Device.length_route_le hroute
  rcases hcases with ⟨-, m, held, -, -, rfl⟩ | ⟨near, met, hnear, hmet, rfl⟩
  · exact ⟨Nat.le_refl _, Nat.le_add_right _ _⟩
  · obtain ⟨hchains, hswaps⟩ := chains_approach_le hnear
    obtain ⟨hsame, hsame'⟩ := chains_settle hmet
    show met.chains + _ ≤ _ + met.chainSwaps ∧ met.chainSwaps ≤ _
    omega

end Meeting

section Passing

variable {entries rest : List (Nat × Pair)} {start s : State}

/-- Each dependency that is left may still cost the ceiling. -/
theorem Passes.total_le (hcosts : costs.InWords) {emitted : List Operation}
    (hstart : start.Tracks d costs emitted) (h : Passes d costs entries start rest s) :
    (∃ emitted, s.Tracks d costs emitted) ∧
      s.total + rest.length * d.ceiling ≤ start.total + entries.length * d.ceiling := by
  -- what was paid and what may still be paid never grow together
  induction h with
  | refl => exact ⟨⟨emitted, hstart⟩, Nat.le_refl _⟩
  | @met callPoint p rest s s' _ hmeet ih =>
    obtain ⟨⟨emitted, hs⟩, hle⟩ := ih
    have htotal := total_meet_le hcosts hs.clear.moves.layout hmeet
    dsimp only at htotal
    rw [List.length_cons, Nat.succ_mul] at hle
    exact ⟨hs.met hmeet, by omega⟩

/-- Half-way through a dependency no more than the ceiling has been added for it. -/
theorem Counts.total_le (hcosts : costs.InWords) {emitted : List Operation}
    (hstart : start.Tracks d costs emitted) (h : Counts d costs entries start s) :
    (∃ emitted, s.Tracks d costs emitted) ∧ s.total ≤ start.total + entries.length * d.ceiling := by
  cases h with
  | between hpasses =>
    obtain ⟨htracks, hle⟩ := hpasses.total_le hcosts hstart
    exact ⟨htracks, by omega⟩
  | @near callPoint u v p rest route s' _ hpasses hu hv hroute hnear =>
    obtain ⟨⟨emitted, hs⟩, hle⟩ := hpasses.total_le hcosts hstart
    have hM := hs.moves.layout.mapping
    have hlen := Device.length_route_le hroute
    have hpos := Nat.zero_lt_of_lt (hM.entry_lt hu)
    obtain ⟨k, -, hisRoute⟩ := d.isRoute_of_route hroute
    obtain ⟨swaps, -, -, htracks⟩ := of_approach hs.clear hisRoute.linked hnear
    -- the dependency that is under way is still among those left, with its whole ceiling
    have happroach := total_approach_le hnear
    dsimp only at happroach
    have hhops := Device.hops_le_ceiling (d := d) (k := route.length - 2) hcosts (by omega)
      (Nat.zero_le _)
    rw [List.length_cons, Nat.succ_mul] at hle
    exact ⟨⟨_, htracks⟩, by omega⟩

/-- Each dependency that is left may still add a chain. -/
theorem Passes.chains_le (h : Passes d costs entries start rest s) :
    s.chains + start.chainSwaps ≤ start.chains + s.chainSwaps ∧
      s.chainSwaps + rest.length * (d.size - 2) ≤
        start.chainSwaps + entries.length * (d.size - 2) := by
  induction h with
  | refl => exact ⟨Nat.le_refl _, Nat.le_refl _⟩
  | @met callPoint p rest s s' _ hmeet ih =>
    obtain ⟨hchains, hswaps⟩ := chains_meet_le hmeet
    dsimp only at hchains hswaps
    rw [List.length_cons, Nat.succ_mul] at ih
    omega

theorem Counts.chains_le (h : Counts d costs entries start s) :
    s.chains + start.chainSwaps ≤ start.chains + s.chainSwaps ∧
      s.chainSwaps ≤ start.chainSwaps + entries.length * (d.size - 2) := by
  cases h with
  | between hpasses =>
    obtain ⟨hchains, hswaps⟩ := hpasses.chains_le
    omega
  | @near callPoint u v p rest route s' _ hpasses hu hv hroute hnear =>
    obtain ⟨hchains, hswaps⟩ := hpasses.chains_le
    obtain ⟨hchains', hswaps'⟩ := chains_approach_le hnear
    have hlen := Device.length_route_le hroute
    dsimp only at hchains' hswaps'
    rw [List.length_cons, Nat.succ_mul] at hswaps
    omega

/-- **The chains of a path-guided allocation and their swaps can be counted in 32 bits.** -/
theorem chainsBelow (hsmall : deps.length * d.size ≤ 2 ^ 32) (initial : List Nat) :
    ChainsBelow (2 ^ 32) d costs deps initial := by
  intro pairs layout s hpairs hlayout hcounts
  obtain ⟨hchains, hswaps⟩ := hcounts.chains_le
  have hlen : ((deps.map Dependency.callPoint).zip pairs).length ≤ deps.length := by
    rw [List.length_zip, List.length_map]
    exact Nat.min_le_left _ _
  have hstart : (State.start layout).chains = 0 ∧ (State.start layout).chainSwaps = 0 := ⟨rfl, rfl⟩
  have hless : deps.length * (d.size - 2) < 2 ^ 32 := by
    rw [Nat.mul_sub]
    cases deps with
    | nil => simp
    | cons dep deps =>
      rw [List.length_cons] at hsmall ⊢
      omega
  have hbound := hswaps.trans (Nat.add_le_add_left (Nat.mul_le_mul_right (d.size - 2) hlen) _)
  omega

/-- **Neither total of a path-guided allocation leaves 64 bits.** -/
theorem totalsBelow (hcosts : costs.InWords) (hsmall : deps.length * d.size ≤ 2 ^ 32)
    (initial : List Nat) : TotalsBelow (2 ^ 64) d costs deps initial := by
  intro pairs layout s hcheck hpairs hlayout hcounts
  obtain ⟨-, rfl⟩ := ofMapping_eq_ok_iff.1 hlayout
  obtain ⟨⟨emitted, htracks⟩, hle⟩ :=
    hcounts.total_le hcosts (State.tracks_start (checkMapping_eq_ok_iff.1 hcheck))
  have hlen : ((deps.map Dependency.callPoint).zip pairs).length ≤ deps.length := by
    rw [List.length_zip, List.length_map]
    exact Nat.min_le_left _ _
  have hstart : (State.start ⟨initial, inverse initial⟩).total = 0 := rfl
  have htotal : s.total < 2 ^ 64 := by
    calc s.total ≤ ((deps.map Dependency.callPoint).zip pairs).length * d.ceiling := by omega
      _ ≤ deps.length * d.ceiling := Nat.mul_le_mul_right _ hlen
      _ < 2 ^ 64 := Device.mul_ceiling_lt hsmall
  -- swaps are among the operations that the total is about
  exact ⟨htotal, htracks.swapTotal_le.trans_lt htotal⟩

end Passing

/-! ### Reports -/

theorem unbilled_emitted (d : Device) (costs : CostModel) (deps : Dependencies)
    (initial : List Nat) : Unbilled (emitted d costs deps initial) :=
  (unbilled_checkMapping _ _).bind fun _ => (deps.unbilled_validate _).bind fun _ =>
    deps.unbilled_pairs.bind fun _ => (Layout.unbilled_ofMapping _).bind fun _ =>
      unbilled_run d costs _ _

/-- The state at the end tracks the operations of the steps. -/
theorem tracks_of_emitted {steps : List Step} {final : State}
    (h : emitted d costs deps initial = .ok (steps, final)) :
    final.Tracks d costs (steps.flatMap Step.ops) := by
  obtain ⟨⟨⟩, hcheck, h⟩ := bind_eq_ok_iff.1 h
  obtain ⟨⟨⟩, -, h⟩ := bind_eq_ok_iff.1 h
  obtain ⟨pairs, hpairs, h⟩ := bind_eq_ok_iff.1 h
  obtain ⟨layout, hlayout, hrun⟩ := bind_eq_ok_iff.1 h
  obtain ⟨-, rfl⟩ := ofMapping_eq_ok_iff.1 hlayout
  have hstart : (State.start ⟨initial, inverse initial⟩).Tracks d costs [] :=
    State.tracks_start (checkMapping_eq_ok_iff.1 hcheck)
  exact (of_run (Dependencies.pairs_eq_ok_iff.1 hpairs) hstart hrun).2

/-- The total of the swaps is narrowed only after a total that is no smaller. -/
theorem exists_narrow_swapTotal {steps : List Step} {final : State} {cost : Nat}
    (h : emitted d costs deps initial = .ok (steps, final))
    (hcost : narrowCost final.total = .ok cost) :
    ∃ swapCost, narrowCost final.swapTotal = .ok swapCost := by
  have hle := (tracks_of_emitted h).swapTotal_le
  obtain ⟨hfits, -⟩ := narrowCost_eq_ok_iff.1 hcost
  exact ⟨_, narrowCost_eq_ok_iff.2 ⟨hle.trans_lt hfits, rfl⟩⟩

theorem bills_build (d : Device) (costs : CostModel) (deps : Dependencies) (initial : List Nat) :
    Bills costs ((emitted d costs deps initial).map Prod.fst)
      ((build d costs deps initial).map Prod.fst) := by
  have hbuild : (build d costs deps initial).map Prod.fst =
      emitted d costs deps initial >>= fun result => narrowCost result.2.total >>= fun cost =>
        (narrowCost result.2.swapTotal).map fun _ => ⟨result.2.initial, cost, result.1⟩ := by
    have hnarrow : build d costs deps initial = emitted d costs deps initial >>= fun result => do
        let cost ← narrowCost result.2.total
        let swapCost ← narrowCost result.2.swapTotal
        return (⟨result.2.initial, cost, result.1⟩,
          ⟨swapCost, result.2.chains, result.2.chainSwaps⟩) := by
      simp only [build, emitted, bind_assoc]
    rw [hnarrow]
    cases emitted d costs deps initial with
    | error e => rfl
    | ok result =>
      show Except.map Prod.fst (narrowCost result.2.total >>= _) = narrowCost result.2.total >>= _
      cases narrowCost result.2.total with
      | error e => rfl
      | ok cost =>
        show Except.map Prod.fst (narrowCost result.2.swapTotal >>= _) = _
        cases narrowCost result.2.swapTotal with
        | error e => rfl
        | ok swapCost => rfl
  rw [hbuild]
  refine bills_of_narrow (unbilled_emitted d costs deps initial) ?_ ?_
  · rintro ⟨steps, final⟩ h
    rw [CostModel.total, total_eq_sum]
    exact (tracks_of_emitted h).total
  · rintro ⟨steps, final⟩ h hfits
    obtain ⟨swapCost, hswap⟩ := exists_narrow_swapTotal h (if_pos hfits)
    exact ⟨⟨final.initial, final.total, steps⟩, by rw [hswap]; rfl, rfl, rfl⟩

end PathGuided

end QubitAllocation
