import QubitAllocation.Proofs.Bridges
import QubitAllocation.Proofs.Exact.Sharing
import QubitAllocation.Proofs.Totals.Basic

/-!
# Totals of exact allocation

The dynamic programme adds up with sums that stop at `sumMax`, so the costs that it compares need
not be the exact ones. `LeastTotal` is the exact minimum that it should find: the least total of any
steps that run from some mapping and meet the dependencies in their order (`Delivers`). No table and
no trail is mentioned there.

A trail costs no more than any such steps, and it is turned into such steps, at its own cost unless
it has reached `sumMax`. So the cost of the trail that is chosen is the exact minimum, stopped at
`sumMax` (`cost_bestTrail`), which is far above what fits 32 bits: the minimum is refused exactly if
it is too large, and reported else (`BillsLeast`).
-/

set_option autoImplicit false

namespace QubitAllocation.Exact

open Arrangement Outcome Replay

/-! ## The exact minimum -/

/-- From the mapping the steps can be run, and they end in gates on the pairs of the dependencies,
one by one. Bridges are between qubits that are not coupled. -/
structure Delivers (d : Device) (deps : Dependencies) (M : List Nat) (steps : List Step) : Prop where
  initial : IsArrangement d.size M
  runs : ∃ N, Runs d M (steps.flatMap Step.ops) N
  ends : List.Forall₂ (fun dep step => step.callPoint = dep.callPoint ∧
    ∃ p, dep.pairs = [p] ∧ EndsIn step.ops p) deps steps
  apart : BridgesApart d M (steps.flatMap Step.ops)

/-- The least exact total of steps that meet the dependencies in their order. -/
def LeastTotal (d : Device) (costs : CostModel) (deps : Dependencies) (m : Nat) : Prop :=
  IsLeast {c | ∃ M steps, Delivers d deps M steps ∧ costs.total (steps.flatMap Step.ops) = c} m

/-- The answer is the least total, unless that does not fit 32 bits. Then it is refused, and what is
named is the least total as far as sums go. -/
structure BillsLeast (d : Device) (costs : CostModel) (deps : Dependencies)
    (answer : Except AllocError Solution) : Prop where
  overflow_iff : ∀ k, answer = .error (.costOverflow k) ↔
    ∃ m, LeastTotal d costs deps m ∧ Text.wordMax < m ∧ k = min m sumMax
  least : ∀ s, answer = .ok s → LeastTotal d costs deps s.cost
  complete : ∀ m, LeastTotal d costs deps m → m ≤ Text.wordMax → ∃ s, answer = .ok s

/-! ## Sums that stop -/

section Trails

variable {d : Device} {costs : CostModel} {t : SwapTable} {pairs : List Pair} {trail : Trail}

theorem cost_firstLayer_le {tables : Array (Array (Option Nat))} {all : List Stop} {p : Pair}
    (h : trail ∈ firstLayer d tables costs all p) : trail.cost ≤ sumMax := by
  obtain ⟨stop, -, h⟩ := List.mem_filterMap.1 h
  obtain ⟨g, -, rfl⟩ := Option.map_eq_some_iff.1 h
  exact Nat.min_le_right _ _

theorem cost_nextLayer_le {tables : Array (Array (Option Nat))} {all : List Stop}
    {trails : List Trail} {p : Pair} (h : trail ∈ nextLayer d tables costs t all trails p) :
    trail.cost ≤ sumMax := by
  obtain ⟨stop, -, h⟩ := List.mem_filterMap.1 h
  obtain ⟨g, -, h⟩ := Option.bind_eq_some_iff.1 h
  obtain ⟨source, -, m, -, rfl⟩ := mem_extensions_iff.1 (mem_of_firstLeast h)
  exact Nat.min_le_right _ _

theorem cost_bestTrail_le (h : bestTrail? d costs t pairs = some trail) : trail.cost ≤ sumMax := by
  rw [bestTrail?_eq_cheapestTrail?] at h
  cases pairs with
  | nil => cases h
  | cons p ps =>
    have hmem := mem_of_firstLeast h
    -- whichever layer comes last, the costs of its trails were just added up
    induction ps using List.reverseRecOn with
    | nil => exact cost_firstLayer_le hmem
    | append_singleton ps q _ =>
      rw [List.foldl_append] at hmem
      exact cost_nextLayer_le hmem

/-! ## Trails and steps -/

/-- The steps along a trail bridge only what is apart. -/
theorem bridgesApart_of_follows (hs : t.Serves d) {source : Stop} (hsource : source ∈ stops d.size)
    {deps : Dependencies} {rest : List (Pair × Stop)} {c : Nat} {sts : List Step}
    (h : Follows d costs t source rest c)
    (hsts : steps d t (some source) (deps.zip (rest.map Prod.snd)) = .ok sts) :
    BridgesApart d source.mapping (sts.flatMap Step.ops) := by
  induction h generalizing deps sts with
  | nil source =>
    rw [List.map_nil, List.zip_nil_right] at hsts
    cases hsts
    exact bridgesApart_of_no_bridge (by simp)
  | @cons source stop p rest m g c hstop hm hg _ ih =>
    cases deps with
    | nil =>
      cases hsts
      exact bridgesApart_of_no_bridge (by simp)
    | cons dep deps =>
      obtain ⟨k, hk, rfl⟩ := (movePrice_iff hs hsource hstop).1 hm
      obtain ⟨moves, hmoves, hruns, hall, -⟩ := moveOps_of_isDepth hs hsource hstop hk
      rw [List.map_cons, List.zip_cons_cons, steps] at hsts
      obtain ⟨q, hq, hsts⟩ := bind_eq_ok_iff.1 hsts
      obtain ⟨moves', hmoves', hsts⟩ := bind_eq_ok_iff.1 hsts
      obtain rfl : moves = moves' := Except.ok.inj (hmoves.symm.trans hmoves')
      obtain ⟨gate, hgate, hsts⟩ := bind_eq_ok_iff.1 hsts
      obtain ⟨later, hlater, hsts⟩ := bind_eq_ok_iff.1 hsts
      cases hsts
      -- after the swaps, the gate is what direct allocation does at the stop
      have hdirect : Direct.step d stop.mapping dep = .ok ⟨dep.callPoint, [gate]⟩ :=
        bind_eq_ok_iff.2 ⟨q, hq, bind_eq_ok_iff.2 ⟨gate, hgate, rfl⟩⟩
      have hgateRuns := (Direct.of_step (mem_stops_iff.1 hstop).1 hdirect).2
      have hswaps : BridgesApart d source.mapping moves :=
        bridgesApart_of_no_bridge fun op hop => Operation.isBridge_of_isSwap (hall op hop)
      rw [List.flatMap_cons, List.append_assoc]
      exact hswaps.append hruns
        ((Direct.bridgesApart_of_step hdirect).append hgateRuns (ih hstop hlater))

theorem Delivers.endsIn {deps : Dependencies} {M : List Nat} {steps : List Step}
    (h : Delivers d deps M steps)
    (hpairs : List.Forall₂ (fun dep p => dep.pairs = [p]) deps pairs) :
    List.Forall₂ (fun p step => EndsIn step.ops p) pairs steps := by
  have hends := h.ends
  clear h
  induction hpairs generalizing steps with
  | nil =>
    cases hends
    exact .nil
  | cons hp _ ih =>
    cases hends with
    | cons hend hends =>
      obtain ⟨-, q, hq, hend⟩ := hend
      rw [hp] at hq
      cases hq
      exact .cons hend (ih hends)

/-- Steps that meet the dependencies in their order cost no less than some sequence of stops. -/
theorem Delivers.exists_priced  (costs : CostModel) {deps : Dependencies} {M : List Nat}
    {steps : List Step} (h : Delivers d deps M steps) (hs : t.Serves d) (hne : deps ≠ [])
    (hvalid : deps.validate d.size = .ok ()) (hpairs : deps.pairs = .ok pairs) :
    ∃ route c, Priced d costs t pairs.reverse route c ∧
      c ≤ costs.total (steps.flatMap Step.ops) := by
  have hdistinct : ∀ p ∈ pairs, p.control ≠ p.target :=
    fun p hp => (Dependencies.bounds_of_validate hvalid hpairs p hp).2.2
  obtain ⟨N, hruns⟩ := h.runs
  obtain ⟨rest, c, rfl, hfollows, hle⟩ :=
    follows_of_runs costs hs hdistinct (h.endsIn (Dependencies.pairs_eq_ok_iff.1 hpairs)) h.initial
      hruns
  have hrest : rest ≠ [] := by
    rintro rfl
    exact Dependencies.pairs_ne_nil hpairs hne rfl
  obtain ⟨route, c₀, hpriced, hle₀⟩ := hfollows.exists_priced hrest
  refine ⟨route, c₀, hpriced, hle₀.trans ?_⟩
  rw [CostModel.total, total_eq_sum]
  exact hle (Or.inr h.apart)

/-- The trail that is chosen is turned into steps, at its cost unless that has reached `sumMax`. -/
theorem delivers_of_bestTrail (hs : t.Serves d) {deps : Dependencies}
    (hpairs : deps.pairs = .ok pairs) (h : bestTrail? d costs t pairs = some trail) :
    ∃ M steps, Delivers d deps M steps ∧
      Capped trail.cost (costs.total (steps.flatMap Step.ops)) := by
  have hpairs' := Dependencies.pairs_eq_ok_iff.1 hpairs
  obtain ⟨first, sts, N, hhead, hfirst, hsts, hruns, hmeets, -, hcapped⟩ :=
    steps_of_bestTrail hs hpairs' h
  obtain ⟨first', c, hhead', -, hlen, hfollows, -⟩ := follows_of_bestTrail h
  rw [hhead] at hhead'
  cases hhead'
  refine ⟨first.mapping, sts, ⟨(mem_stops_iff.1 hfirst).1, ⟨N, hruns⟩, ?_, ?_⟩, ?_⟩
  · refine hmeets.imp fun dep step hmeet => ?_
    obtain ⟨hcall, p, swaps, gate, hp, hops, -, hswap, hoperands⟩ := hmeet
    exact ⟨hcall, p, hp, swaps, gate, hops, hswap, hoperands⟩
  · -- starting at the first stop, the trail can be followed from there
    rw [steps_none_eq hhead, ← List.map_snd_zip hlen.ge] at hsts
    exact bridgesApart_of_follows hs hfirst hfollows hsts
  · rw [CostModel.total, total_eq_sum]
    exact hcapped

end Trails

/-! ## Solutions -/

section Solutions

variable {d : Device} {costs : CostModel} {t : SwapTable} {deps : Dependencies} {pairs : List Pair}
  {trail : Trail} {m : Nat}

theorem LeastTotal.unique {m' : Nat} (h : LeastTotal d costs deps m)
    (h' : LeastTotal d costs deps m') : m = m' :=
  IsLeast.unique h h'

/-- There is a least total as soon as the dependencies can be met. -/
theorem exists_leastTotal {M : List Nat} {steps : List Step} (h : Delivers d deps M steps)
    (costs : CostModel) : ∃ m, LeastTotal d costs deps m :=
  have hne : {c | ∃ M steps, Delivers d deps M steps ∧
    costs.total (steps.flatMap Step.ops) = c}.Nonempty := ⟨_, M, steps, h, rfl⟩
  ⟨_, Nat.sInf_mem hne, fun _ => Nat.sInf_le⟩

/-- **The trail that is chosen costs the least total**, as far as sums go. -/
theorem cost_bestTrail (hs : t.Serves d) (hne : deps ≠ [])
    (hvalid : deps.validate d.size = .ok ()) (hpairs : deps.pairs = .ok pairs)
    (hbest : bestTrail? d costs t pairs = some trail) (hm : LeastTotal d costs deps m) :
    trail.cost = min m sumMax := by
  obtain ⟨⟨M, steps, hdelivers, rfl⟩, hlower⟩ := hm
  obtain ⟨route, c, hpriced, hle⟩ := hdelivers.exists_priced costs hs hne hvalid hpairs
  have hupper := (bestTrail_le hbest hpriced).trans hle
  have hstop := cost_bestTrail_le hbest
  obtain ⟨M', steps', hdelivers', hcapped⟩ := delivers_of_bestTrail hs hpairs hbest
  have hleast := hlower ⟨M', steps', hdelivers', rfl⟩
  -- below `sumMax` the trail's own steps cost as much, so no steps cost less
  rcases hcapped with hcost | ⟨hlarge, -⟩ <;> omega

/-- Nothing is to be paid for no dependencies. -/
theorem leastTotal_nil_iff (d : Device) (costs : CostModel) :
    LeastTotal d costs [] m ↔ m = 0 := by
  have hzero : LeastTotal d costs [] 0 := by
    refine ⟨⟨identity d.size, [], ?_, rfl⟩, fun _ _ => Nat.zero_le _⟩
    exact ⟨isArrangement_identity d.size, ⟨_, .nil _⟩, .nil, bridgesApart_of_no_bridge (by simp)⟩
  exact ⟨fun h => h.unique hzero, fun h => h ▸ hzero⟩

theorem billsLeast_ok {s : Solution} (hm : LeastTotal d costs deps s.cost)
    (hfits : s.cost ≤ Text.wordMax) : BillsLeast d costs deps (.ok s) := by
  refine ⟨fun k => ⟨fun h => (by cases h), ?_⟩, ?_, fun _ _ _ => ⟨s, rfl⟩⟩
  · rintro ⟨m, hm', hlarge, -⟩
    rw [hm'.unique hm] at hlarge
    omega
  · rintro s' ⟨⟩
    exact hm

theorem billsLeast_overflow (hm : LeastTotal d costs deps m) (hlarge : Text.wordMax < m) :
    BillsLeast d costs deps (.error (.costOverflow (min m sumMax))) := by
  refine ⟨fun k => ⟨?_, ?_⟩, fun s h => (by cases h), fun m' hm' hle => ?_⟩
  · rintro ⟨⟩
    exact ⟨m, hm, hlarge, rfl⟩
  · rintro ⟨m', hm', -, rfl⟩
    rw [hm'.unique hm]
  · rw [hm'.unique hm] at hle
    omega

theorem billsLeast_noSolution (h : ∀ m, ¬ LeastTotal d costs deps m) (k : Nat) :
    BillsLeast d costs deps (.error (.noSolution k)) := by
  refine ⟨fun k => ⟨fun h => (by cases h), ?_⟩, fun s h => (by cases h), ?_⟩
  · rintro ⟨m, hm, -⟩
    exact absurd hm (h m)
  · exact fun m hm => absurd hm (h m)

/-- Answers that agree but for how a cost is reached are billed alike. -/
theorem BillsLeast.congr {answer answer' : Except AllocError Solution}
    (h : BillsLeast d costs deps answer)
    (hmap : answer'.map Solution.cost = answer.map Solution.cost) :
    BillsLeast d costs deps answer' := by
  cases answer with
  | error e =>
    cases answer' with
    | error e' =>
      cases hmap
      exact h
    | ok s' => cases hmap
  | ok s =>
    cases answer' with
    | error e' => cases hmap
    | ok s' =>
      have hcost : s'.cost = s.cost := Except.ok.inj hmap
      have hm := h.least s rfl
      refine billsLeast_ok (hcost ▸ hm) ?_
      -- a larger cost would have been refused
      by_contra hlarge
      cases (h.overflow_iff _).2 ⟨s.cost, hm, by omega, rfl⟩

/-- With the device's own table, **the least total is reported, or refused if it is too large**. -/
theorem billsLeast_own (hvalid : deps.validate d.size = .ok ())
    (hsize : d.size ≤ SwapTable.maxSize) :
    BillsLeast d costs deps (solve d costs none deps) := by
  by_cases hne : deps = []
  · subst hne
    exact billsLeast_ok ((leastTotal_nil_iff d costs).2 rfl) (Nat.zero_le _)
  · obtain ⟨t, htable, hs⟩ := exists_ownTable (Dependencies.pos_of_validate hvalid hne) hsize
    obtain ⟨pairs, hpairs⟩ := Dependencies.exists_pairs (Dependencies.single_of_validate hvalid)
    rcases solve_cases costs hs hvalid hne htable hpairs with
      ⟨hbest, hsolve⟩ | ⟨trail, hbest, hcases⟩
    · -- no trail, so nothing meets the dependencies
      rw [hsolve]
      refine billsLeast_noSolution ?_ _
      rintro m ⟨⟨M, steps, hdelivers, -⟩, -⟩
      obtain ⟨route, c, hpriced, -⟩ := hdelivers.exists_priced costs hs hne hvalid hpairs
      exact not_priced_of_bestTrail_none hbest (Dependencies.pairs_ne_nil hpairs hne) hpriced
    · obtain ⟨M, steps, hdelivers, -⟩ := delivers_of_bestTrail hs hpairs hbest
      obtain ⟨m, hm⟩ := exists_leastTotal hdelivers costs
      have hcost := cost_bestTrail hs hne hvalid hpairs hbest hm
      have hword : Text.wordMax < sumMax := by decide
      have htwo : Text.wordMax + 1 = 2 ^ 32 := by decide
      rcases hcases with ⟨hlarge, hsolve⟩ | ⟨s, hsolve, hstrail, hsolves, -⟩
      · rw [hsolve, hcost]
        exact billsLeast_overflow hm (by omega)
      · have hfits := hsolves.fits
        have hexact : s.cost = m := by omega
        rw [hsolve]
        exact billsLeast_ok (hexact ▸ hm) (by omega)

theorem billsLeast_solve (hvalid : deps.validate d.size = .ok ())
    {shared : Option SwapTable} (hsuits : Suits d shared) (hsize : d.size ≤ SwapTable.maxSize) :
    BillsLeast d costs deps (solve d costs shared deps) :=
  (billsLeast_own hvalid hsize).congr (hsuits.map_cost_solve costs deps)

/-- A device that is too large for a table is refused for that and not for a price. -/
theorem unbilled_solve_of_large (hsize : SwapTable.maxSize < d.size)
    {shared : Option SwapTable} (hsuits : Suits d shared) :
    Unbilled (solve d costs shared deps) := by
  intro k h
  rw [hsuits.error_iff] at h
  rcases bind_eq_error_iff.1 h with h | ⟨⟨⟩, -, h⟩
  · exact deps.unbilled_validate d.size k h
  · split_ifs at h
    · cases h
    · rcases bind_eq_error_iff.1 h with h | ⟨t, htable, -⟩
      · exact unbilled_ofDevice _ k h
      · have hbuild := SwapTable.exists_build_iff.1 ⟨t, ofDevice_eq_ok_iff.1 htable⟩
        omega

end Solutions

end QubitAllocation.Exact
