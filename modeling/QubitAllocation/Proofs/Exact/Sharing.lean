import QubitAllocation.Proofs.Exact.Optimality
import QubitAllocation.Proofs.TokenQuery
import Mathlib

/-!
# Sharing a swap table

The dynamic programme reads only the least numbers of swaps from its table, and only between stops.
Two tables that serve the device give the same numbers there (`movePrice?_congr`), so they lead to
the same trail layer by layer (`bestTrail?_congr`). Hence a table that was set up for another device
changes nothing about the outcome but the swaps that are written down: the same refusal, or a
solution at the same cost that replays (`solve_shared`).

A table for another number of qubits is set aside, whatever it holds. One for as many qubits is
taken as it is, and then its device must have the same couplings: `solve_foreign_table` shares the
table of a device of the same size with other couplings, and is given a solution to dependencies
that have none.
-/

set_option autoImplicit false

namespace QubitAllocation.Exact

open Arrangement Outcome Replay Search

/-- A shared table was set up for a device that has as many qubits only if it has the same
couplings. -/
def Suits (d : Device) (shared : Option SwapTable) : Prop :=
  ∀ t, shared = some t → ∃ d', SwapTable.SetUpFor d' t ∧
    (d'.size = d.size → ∀ u v, d'.Coupled u v ↔ d.Coupled u v)

theorem suits_none (d : Device) : Suits d none := by
  intro t ht
  cases ht

/-! ## Two tables that serve one device -/

section Tables

variable {d : Device} {costs : CostModel} {t t' : SwapTable}

/-- Both tables price a move alike. -/
theorem movePrice?_congr (hs : t.Serves d) (hs' : t'.Serves d) {source target : Stop}
    (hsource : source ∈ stops d.size) (htarget : target ∈ stops d.size) :
    movePrice? t costs source target = movePrice? t' costs source target := by
  apply Option.ext
  intro m
  rw [movePrice_iff hs hsource htarget, movePrice_iff hs' hsource htarget]

/-- Both tables extend trails that end at stops alike. -/
theorem extend?_congr (hs : t.Serves d) (hs' : t'.Serves d) {trails : List Trail} {target : Stop}
    (hlast : ∀ trail ∈ trails, trail.last ∈ stops d.size) (htarget : target ∈ stops d.size)
    (g : Nat) : extend? t costs trails target g = extend? t' costs trails target g := by
  unfold extend?
  congr 1
  apply List.filterMap_congr
  intro trail htrail
  rw [movePrice?_congr hs hs' (hlast trail htrail) htarget]

theorem nextLayer_congr (hs : t.Serves d) (hs' : t'.Serves d) {trails : List Trail}
    (hlast : ∀ trail ∈ trails, trail.last ∈ stops d.size) (p : Pair) :
    nextLayer d d.hopTables costs t (stops d.size) trails p =
      nextLayer d d.hopTables costs t' (stops d.size) trails p := by
  apply List.filterMap_congr
  intro stop hstop
  congr 1
  funext g
  exact extend?_congr hs hs' hlast hstop g

theorem last_mem_firstLayer {p : Pair} :
    ∀ trail ∈ firstLayer d d.hopTables costs (stops d.size) p, trail.last ∈ stops d.size := by
  intro trail htrail
  obtain ⟨stop, hstop, hprice⟩ := List.mem_filterMap.1 htrail
  obtain ⟨g, -, rfl⟩ := Option.map_eq_some_iff.1 hprice
  exact hstop

theorem last_mem_nextLayer {trails : List Trail} {p : Pair} :
    ∀ trail ∈ nextLayer d d.hopTables costs t (stops d.size) trails p,
      trail.last ∈ stops d.size := by
  intro trail htrail
  obtain ⟨stop, hstop, hextend⟩ := List.mem_filterMap.1 htrail
  obtain ⟨g, -, hextend⟩ := Option.bind_eq_some_iff.1 hextend
  obtain ⟨source, -, m, -, rfl⟩ := mem_extensions_iff.1 (mem_of_firstLeast hextend)
  exact hstop

theorem foldl_nextLayer_congr (hs : t.Serves d) (hs' : t'.Serves d) (ps : List Pair)
    {trails : List Trail} (hlast : ∀ trail ∈ trails, trail.last ∈ stops d.size) :
    ps.foldl (nextLayer d d.hopTables costs t (stops d.size)) trails =
      ps.foldl (nextLayer d d.hopTables costs t' (stops d.size)) trails := by
  -- every layer ends at stops, so the tables agree on the next one
  induction ps generalizing trails with
  | nil => rfl
  | cons p ps ih =>
    rw [List.foldl_cons, List.foldl_cons, nextLayer_congr hs hs' hlast]
    exact ih last_mem_nextLayer

/-- **Both tables lead to the same trail.** -/
theorem bestTrail?_congr (hs : t.Serves d) (hs' : t'.Serves d) (pairs : List Pair) :
    bestTrail? d costs t pairs = bestTrail? d costs t' pairs := by
  rw [bestTrail?_eq_cheapestTrail?, bestTrail?_eq_cheapestTrail?]
  cases pairs with
  | nil => rfl
  | cons p ps =>
    exact congrArg (firstLeast Trail.cost) (foldl_nextLayer_congr hs hs' ps last_mem_firstLayer)

end Tables

/-! ## The outcome with a shared table -/

section Outcomes

variable {d : Device} {costs : CostModel} {shared shared' : Option SwapTable}
  {deps : Dependencies}

/-- The cost of the outcome is that of the trail, if there is one and its cost fits. -/
theorem map_cost_solve_eq {t : SwapTable} {pairs : List Pair} (costs : CostModel)
    (hs : t.Serves d) (hvalid : deps.validate d.size = .ok ()) (hne : deps ≠ [])
    (htable : chooseTable d shared = .ok t) (hpairs : deps.pairs = .ok pairs) :
    (solve d costs shared deps).map Solution.cost =
      (bestTrail? d costs t pairs).elim (.error (.noSolution deps.length)) fun trail =>
        narrowCost trail.cost := by
  -- no trail, a trail whose cost is too large, and a trail whose cost fits
  rcases solve_cases costs hs hvalid hne htable hpairs with
    ⟨hbest, hsolve⟩ | ⟨trail, hbest, ⟨hlarge, hsolve⟩ | ⟨s, hsolve, hcost, hsolves, -⟩⟩
  · rw [hbest, hsolve]
    rfl
  · rw [hbest, hsolve, Option.elim_some, narrowCost_of_le hlarge]
    rfl
  · rw [hbest, hsolve, Option.elim_some, narrowCost_eq_ok_iff.2 ⟨hcost ▸ hsolves.fits, rfl⟩,
      ← hcost]
    rfl

/-- Two tables that serve the device lead to the same refusal or the same cost. -/
theorem map_cost_solve_congr {t t' : SwapTable} (hs : t.Serves d) (hs' : t'.Serves d)
    (htable : chooseTable d shared = .ok t) (htable' : chooseTable d shared' = .ok t') :
    (solve d costs shared deps).map Solution.cost =
      (solve d costs shared' deps).map Solution.cost := by
  cases hvalid : deps.validate d.size with
  | error e =>
    simp only [solve, hvalid]
    rfl
  | ok =>
    by_cases hne : deps = []
    · -- without dependencies no table is looked at
      subst hne
      rfl
    · obtain ⟨pairs, hpairs⟩ := Dependencies.exists_pairs (Dependencies.single_of_validate hvalid)
      rw [map_cost_solve_eq costs hs hvalid hne htable hpairs,
        map_cost_solve_eq costs hs' hvalid hne htable' hpairs, bestTrail?_congr hs hs']

/-- A table that suits the device is set aside, or was built for a device of the same size and
couplings. -/
theorem Suits.cases (h : Suits d shared) :
    chooseTable d shared = chooseTable d none ∨
      ∃ t d', shared = some t ∧ SwapTable.build d' = .ok t ∧ d'.size = d.size ∧
        ∀ u v, d'.Coupled u v ↔ d.Coupled u v := by
  cases shared with
  | none => exact Or.inl rfl
  | some t =>
    obtain ⟨d', hsetUp, hsame⟩ := h t rfl
    have hsize : t.size = d'.size := hsetUp.serves.size_eq
    by_cases hd : d'.size = d.size
    · exact Or.inr ⟨t, d', rfl, hsetUp.build_eq, hd, hsame hd⟩
    · -- the sizes are all that is compared before the table is taken
      left
      rw [← hsize] at hd
      simp [chooseTable, hd]

/-- **A shared table does not change the outcome**: it is the same refusal or the same cost. -/
theorem Suits.map_cost_solve (h : Suits d shared) (costs : CostModel) (deps : Dependencies) :
    (solve d costs shared deps).map Solution.cost =
      (solve d costs none deps).map Solution.cost := by
  rcases h.cases with hnone | ⟨t, d', rfl, hbuild, hsize, hsame⟩
  · simp only [solve, hnone]
  · -- the other device was not refused a table, so this one, which is as large, is not either
    have hbounds : 0 < d.size ∧ d.size ≤ SwapTable.maxSize := by
      rw [← hsize]
      exact SwapTable.exists_build_iff.1 ⟨t, hbuild⟩
    obtain ⟨t', htable', hs'⟩ := exists_ownTable hbounds.1 hbounds.2
    have hs : t.Serves d := SwapTable.serves_of_build hbuild hsize hsame
    exact map_cost_solve_congr hs hs' (if_pos hs.size_eq) htable'

/-- A refusal does not depend on a shared table. -/
theorem Suits.error_iff (h : Suits d shared) {e : AllocError} :
    solve d costs shared deps = .error e ↔ solve d costs none deps = .error e := by
  have hmap := h.map_cost_solve costs deps
  cases hshared : solve d costs shared deps <;> cases hown : solve d costs none deps <;>
    simp_all [Except.map]

/-- Neither does being answered, nor the cost. -/
theorem Suits.exists_ok (h : Suits d shared) {s : Solution}
    (hown : solve d costs none deps = .ok s) :
    ∃ s', solve d costs shared deps = .ok s' ∧ s'.cost = s.cost := by
  have hmap := h.map_cost_solve costs deps
  rw [hown] at hmap
  cases hshared : solve d costs shared deps with
  | error e =>
    rw [hshared] at hmap
    cases hmap
  | ok s' =>
    rw [hshared] at hmap
    exact ⟨s', rfl, Except.ok.inj hmap⟩

/-- A solution solves the dependencies, also if a table that suits the device is shared. -/
theorem Suits.solves (h : Suits d shared) {s : Solution}
    (hsolve : solve d costs shared deps = .ok s) : Solves d costs deps s := by
  rcases h.cases with hnone | ⟨t, d', rfl, hbuild, hsize, hsame⟩
  · have hsame : solve d costs shared deps = solve d costs none deps := by
      simp only [solve, hnone]
    rw [hsame] at hsolve
    exact solves_of_solve (fun _ h => (by cases h)) hsolve
  · refine solves_of_solve ?_ hsolve
    intro t' ht'
    cases ht'
    exact ⟨d', hbuild, hsize, hsame⟩

end Outcomes

/-- **A shared table changes nothing but the swaps.** With a table that was last set up for a device
of another size, or of the same size and couplings, the outcome is the same refusal or a solution
at the same cost as with the device's own table, and the solution replays at its cost. -/
theorem solve_shared {d d' : Device} {t : SwapTable} {deps : Dependencies} (costs : CostModel)
    (ht : SwapTable.SetUpFor d' t)
    (hsame : d'.size = d.size → ∀ u v, d'.Coupled u v ↔ d.Coupled u v)
    (hdistinct : (deps.map Dependency.callPoint).Nodup) :
    (solve d costs (some t) deps).map Solution.cost =
      (solve d costs none deps).map Solution.cost ∧
    ∀ s, solve d costs (some t) deps = .ok s → replay d deps s costs = .ok s.cost := by
  have hsuits : Suits d (some t) := by
    intro t' ht'
    cases ht'
    exact ⟨d', ht, hsame⟩
  refine ⟨hsuits.map_cost_solve costs deps, fun s hsolve => ?_⟩
  exact (hsuits.solves hsolve).replay_eq hdistinct

/-- On a chain of three qubits, the table of the chain turned around and that of a pair of qubits
both lead to the cost of the chain's own table. -/
theorem solve_shared_chain :
    let d := Device.ofNodup 3 [(0, 1), (1, 2)] (by decide) (by decide)
    let turned := Device.ofNodup 3 [(1, 0), (2, 1)] (by decide) (by decide)
    let pair := Device.ofNodup 2 [(0, 1)] (by decide) (by decide)
    let deps : Dependencies := [⟨7, [⟨0, 1⟩]⟩, ⟨3, [⟨1, 2⟩]⟩, ⟨5, [⟨2, 0⟩]⟩, ⟨4, [⟨1, 0⟩]⟩]
    ∃ t t' s, SwapTable.SetUpFor turned t ∧ SwapTable.SetUpFor pair t' ∧
      solve d .standard (some t) deps = .ok s ∧ replay d deps s .standard = .ok 11 ∧
      (solve d .standard none deps).map Solution.cost = .ok 11 ∧
      (solve d .standard (some t') deps).map Solution.cost = .ok 11 := by
  intro d turned pair deps
  have hcoupled : ∀ u v, turned.Coupled u v ↔ d.Coupled u v := by
    intro u v
    simp only [d, turned, Device.Coupled, Device.ofNodup, List.mem_cons, List.not_mem_nil, or_false,
      Prod.mk.injEq]
    tauto
  obtain ⟨t, ht⟩ : ∃ t, SwapTable.build turned = .ok t :=
    SwapTable.exists_build_iff.2 (by decide)
  obtain ⟨t', ht'⟩ : ∃ t', SwapTable.build pair = .ok t' :=
    SwapTable.exists_build_iff.2 (by decide)
  have hturned := @solve_shared d turned t deps .standard (.built ht) (fun _ => hcoupled)
    (by decide)
  have hpair := @solve_shared d pair t' deps .standard (.built ht')
    (fun hsize => absurd hsize (by decide)) (by decide)
  have hsolve : solve d .standard (some t) deps = .ok ⟨[0, 1, 2], 11, [⟨7, [.cnot 0 1]⟩,
      ⟨3, [.cnot 1 2]⟩, ⟨5, [.swap 0 1, .rev 2 0]⟩, ⟨4, [.cnot 1 0]⟩]⟩ :=
    SwapTable.of_build ht (by decide +kernel)
  have hown : (solve d .standard none deps).map Solution.cost = .ok 11 := by
    rw [← hturned.1, hsolve]
    rfl
  exact ⟨t, t', _, .built ht, .built ht', hsolve, hturned.2 _ hsolve, hown, hpair.1.trans hown⟩

/-- **A table of the same size with other couplings is not refused.** The second pair can only be
met by a swap that the device does not allow: with its own table it has no solution, with the
other device's table it has one that does not replay. -/
theorem solve_foreign_table :
    let d := Device.ofNodup 3 [(0, 1)] (by decide) (by decide)
    let other := Device.ofNodup 3 [(0, 2)] (by decide) (by decide)
    let deps : Dependencies := [⟨0, [⟨0, 1⟩]⟩, ⟨1, [⟨0, 2⟩]⟩]
    ∃ t s, SwapTable.SetUpFor other t ∧
      deps.validate d.size = .ok () ∧ (deps.map Dependency.callPoint).Nodup ∧
      solve d .standard none deps = .error (.noSolution 2) ∧
      solve d .standard (some t) deps = .ok s ∧
      replay d deps s .standard = .error (.replay 1 (.swapNotAdjacent (.swap 1 2) 0 2)) := by
  intro d other deps
  obtain ⟨t, ht⟩ : ∃ t, SwapTable.build other = .ok t :=
    SwapTable.exists_build_iff.2 (by decide)
  have hsolve : solve d .standard (some t) deps =
      .ok ⟨[1, 0, 2], 15, [⟨0, [.rev 0 1]⟩, ⟨1, [.swap 1 2, .rev 0 2]⟩]⟩ :=
    SwapTable.of_build ht (by decide +kernel)
  exact ⟨t, _, .built ht, by cbv, by decide, by decide +kernel, hsolve, by cbv⟩

end QubitAllocation.Exact
