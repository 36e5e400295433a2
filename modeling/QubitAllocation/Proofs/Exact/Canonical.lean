import QubitAllocation.Proofs.Enumeration
import QubitAllocation.Proofs.Exact.Optimality
import QubitAllocation.Proofs.Reach

/-!
# Ties go to the lowest rank

Many sequences of mappings can have the least price. The dynamic programme takes the first of its
trails at every choice: among the ways to a stop, and among the stops in the end. Trails stand in
the order of the ranks of their last mappings, so these choices, each made without looking ahead,
amount to one: of all sequences of least price, the ranks of the mappings read from the last to the
first are lexicographically least.

A trail's way to its last stop is first among the ways there that cost no more (`FirstInv`); one
layer keeps this, because a way to the next stop that costs no more begins with a way that costs no
more (`firstInv_nextLayer`). `Schedule` prices sequences of mappings without trails or stops, and
`solve_canonical` states the result for them.
-/

set_option autoImplicit false

namespace QubitAllocation.Exact

open Arrangement Outcome Replay

/-! ## The order of choice -/

/-- The first sequence comes before the second: they are read in the order given, and the first
mappings that differ are compared by rank. -/
def Precedes (Ms Ns : List (List Nat)) : Prop :=
  List.Lex (· < ·) (Ms.map rank) (Ns.map rank)

/-- All stops stand in the order of their ranks. -/
theorem pairwise_stops (n : Nat) :
    (stops n).Pairwise fun a b => rank a.mapping < rank b.mapping := by
  have hranks : ((enumerate n).map rank).Pairwise (· < ·) := by
    rw [map_rank_enumerate]
    exact List.pairwise_lt_range
  rw [stops, List.pairwise_map]
  exact List.pairwise_map.1 hranks

section Trails

variable (d : Device) (costs : CostModel) (t : SwapTable)

/-- After the pairs `done`, latest first: trails stand in the order of the ranks of their last
mappings, and the way of each that has not been capped is the first of those that cost no more. -/
structure FirstInv (done : List Pair) (trails : List Trail) : Prop where
  ordered : trails.Pairwise fun a b => rank a.last.mapping < rank b.last.mapping
  first : ∀ trail ∈ trails, trail.cost < sumMax → ∀ {earlier c},
    Priced d costs t done (trail.last :: earlier) c → c ≤ trail.cost →
      trail.earlier = earlier ∨
        Precedes (trail.earlier.map Stop.mapping) (earlier.map Stop.mapping)

variable {d costs t}

/-- A trail that is `other`, or ends at a lower rank, comes before every way to the last stop of
`other` that costs no more. -/
theorem FirstInv.precedes {done : List Pair} {trails : List Trail} {trail other : Trail}
    {earlier : List Stop} {c : Nat} (inv : FirstInv d costs t done trails)
    (hother : other ∈ trails) (hfits : other.cost < sumMax)
    (hpriced : Priced d costs t done (other.last :: earlier) c) (hle : c ≤ other.cost)
    (hchoice : trail = other ∨ rank trail.last.mapping < rank other.last.mapping) :
    trail.last :: trail.earlier = other.last :: earlier ∨
      Precedes ((trail.last :: trail.earlier).map Stop.mapping)
        ((other.last :: earlier).map Stop.mapping) := by
  rcases hchoice with rfl | hlt
  · rcases inv.first trail hother hfits hpriced hle with rfl | hprecedes
    · exact Or.inl rfl
    · exact Or.inr (.cons hprecedes)
  · exact Or.inr (.rel hlt)

/-! ## One layer -/

theorem firstInv_firstLayer (p : Pair) :
    FirstInv d costs t [p] (firstLayer d d.hopTables costs (stops d.size) p) where
  ordered := by
    refine (pairwise_stops d.size).filterMap _ ?_
    intro a b hab trail htrail trail' htrail'
    obtain ⟨g, -, rfl⟩ := Option.map_eq_some_iff.1 htrail
    obtain ⟨g', -, rfl⟩ := Option.map_eq_some_iff.1 htrail'
    exact hab
  first := by
    intro trail htrail _ earlier c hpriced _
    obtain ⟨stop, -, hprice⟩ := List.mem_filterMap.1 htrail
    obtain ⟨g, -, rfl⟩ := Option.map_eq_some_iff.1 hprice
    cases hpriced with
    | first _ _ => exact Or.inl rfl
    | next hnone _ _ _ => cases hnone

theorem last_of_extend {trails : List Trail} {target : Stop} {g : Nat} {trail : Trail}
    (h : extend? t costs trails target g = some trail) : trail.last = target := by
  obtain ⟨source, -, m, -, rfl⟩ := mem_extensions_iff.1 (mem_of_firstLeast h)
  rfl

theorem firstInv_nextLayer {q : Pair} {done : List Pair} {trails : List Trail}
    (layer : LayerInv d costs t (q :: done) trails) (inv : FirstInv d costs t (q :: done) trails)
    (p : Pair) :
    FirstInv d costs t (p :: q :: done)
      (nextLayer d d.hopTables costs t (stops d.size) trails p) where
  ordered := by
    refine (pairwise_stops d.size).filterMap _ ?_
    intro a b hab trail htrail trail' htrail'
    obtain ⟨g, -, hextend⟩ := Option.bind_eq_some_iff.1 htrail
    obtain ⟨g', -, hextend'⟩ := Option.bind_eq_some_iff.1 htrail'
    rw [last_of_extend hextend, last_of_extend hextend']
    exact hab
  first := by
    intro trail htrail hfits earlier c hpriced hle
    obtain ⟨stop, hstop, hextend⟩ := List.mem_filterMap.1 htrail
    obtain ⟨g, hg, hextend⟩ := Option.bind_eq_some_iff.1 hextend
    obtain ⟨source, -, hsource, hchoice⟩ := firstLeast_filterMap inv.ordered hextend
    obtain ⟨m₀, -, rfl⟩ := Option.map_eq_some_iff.1 hsource
    cases hpriced with
    | @next _ last earlier c _ _ m g' hpriced _ hm hg' =>
      obtain rfl : g = g' := by simpa [hg] using hg'
      -- a trail to the same stop costs no more, so extending it costs no more than what was chosen
      obtain ⟨other, hother, rfl, hcost⟩ := layer.complete hpriced
      have hoffer : (movePrice? t costs other.last stop).map (fun move =>
          (⟨addCost (addCost other.cost move) g, stop, other.last :: other.earlier⟩ : Trail)) =
            some ⟨addCost (addCost other.cost m) g, stop, other.last :: other.earlier⟩ := by
        rw [hm]
        rfl
      have hleast := firstLeast_le hextend (List.mem_filterMap.2 ⟨other, hother, hoffer⟩)
      have h₁ := addCost_le (addCost other.cost m) g
      have h₂ := addCost_le other.cost m
      dsimp only at hfits hle hleast
      exact inv.precedes hother (by omega) hpriced (by omega)
        (hchoice other hother _ hoffer (by dsimp only; omega))

/-! ## All layers -/

theorem firstInv_foldl {ps : List Pair} {q : Pair} {done : List Pair} {trails : List Trail}
    (layer : LayerInv d costs t (q :: done) trails)
    (inv : FirstInv d costs t (q :: done) trails) :
    FirstInv d costs t (ps.reverse ++ q :: done)
      (ps.foldl (nextLayer d d.hopTables costs t (stops d.size)) trails) := by
  induction ps generalizing q done trails with
  | nil => exact inv
  | cons p ps ih =>
    rw [List.foldl_cons, List.reverse_cons, List.append_assoc]
    exact ih (layerInv_nextLayer layer p) (firstInv_nextLayer layer inv p)

/-- The last layer has first ways for all pairs. -/
theorem firstInv_last (p : Pair) (ps : List Pair) :
    FirstInv d costs t (p :: ps).reverse
      (ps.foldl (nextLayer d d.hopTables costs t (stops d.size))
        (firstLayer d d.hopTables costs (stops d.size) p)) := by
  rw [List.reverse_cons]
  exact firstInv_foldl (layerInv_firstLayer p) (firstInv_firstLayer p)

/-- **The trail that is chosen is the first of least price**, unless its cost has been capped. -/
theorem bestTrail_precedes {pairs : List Pair} {trail : Trail} {route : List Stop} {c : Nat}
    (h : bestTrail? d costs t pairs = some trail) (hfits : trail.cost < sumMax)
    (hpriced : Priced d costs t pairs.reverse route c) (hle : c ≤ trail.cost) :
    trail.last :: trail.earlier = route ∨
      Precedes ((trail.last :: trail.earlier).map Stop.mapping) (route.map Stop.mapping) := by
  rw [bestTrail?_eq_cheapestTrail?] at h
  cases pairs with
  | nil => cases h
  | cons p ps =>
    obtain ⟨last, earlier, rfl⟩ := hpriced.exists_last
    have inv : FirstInv d costs t (p :: ps).reverse _ := firstInv_last p ps
    obtain ⟨other, hother, rfl, hcost⟩ := (layerInv_last p ps).complete hpriced
    have hleast := firstLeast_le h hother
    -- every trail is a candidate, and the one that is taken is the first of least cost
    rw [cheapestTrail?, ← List.filterMap_some (l := List.foldl _ _ _)] at h
    obtain ⟨trail', -, htrail', hchoice⟩ := firstLeast_filterMap inv.ordered h
    obtain rfl := Option.some.inj htrail'
    exact inv.precedes hother (by omega) hpriced (by omega)
      (hchoice other hother other rfl (by omega))

end Trails

/-! ## Schedules -/

section Schedules

variable (d : Device) (costs : CostModel) (t : SwapTable)

/-- The pairs can be met in order, each at its mapping, for the price: the gates that the couplings
call for at the mappings, and the least number of swaps between one mapping and the next. -/
inductive Schedule : List Pair → List (List Nat) → Nat → Prop
  | first {p : Pair} {M : List Nat} {op : Operation} : IsArrangement d.size M →
      Gate.CalledAt d M p op → Schedule [p] [M] (costs.price op)
  | next {ps : List Pair} {Ms : List (List Nat)} {N M : List Nat} {c k : Nat} {p : Pair}
      {op : Operation} : Schedule ps (Ms ++ [N]) c → IsArrangement d.size M →
      t.swapCount (inverse N) (inverse M) = .ok k → Gate.CalledAt d M p op →
      Schedule (ps ++ [p]) (Ms ++ [N, M]) (c + costs.swap * k + costs.price op)

variable {d costs t}

/-- A stop is priced by the gate that is called for at its mapping. -/
theorem stopPrice_iff {stop : Stop} (hstop : stop ∈ stops d.size) {p : Pair} {g : Nat} :
    stopPrice? d d.hopTables costs p stop = some g ↔
      ∃ op, Gate.CalledAt d stop.mapping p op ∧ costs.price op = g := by
  have hM := (mem_stops_iff.1 hstop).1
  constructor
  · intro h
    obtain ⟨u, hu, h⟩ := Option.bind_eq_some_iff.1 h
    obtain ⟨v, hv, h⟩ := Option.bind_eq_some_iff.1 h
    obtain ⟨op, hcalled, hprice⟩ := (Gate.gatePrice_iff p (hM.entry_lt hu) (hM.entry_lt hv)).1 h
    exact ⟨op, ⟨u, v, hu, hv, hcalled⟩, hprice⟩
  · rintro ⟨op, ⟨u, v, hu, hv, hcalled⟩, hprice⟩
    rw [stopPrice?, hu, hv]
    exact (Gate.gatePrice_iff p (hM.entry_lt hu) (hM.entry_lt hv)).2 ⟨op, hcalled, hprice⟩

/-- A move is priced by the number of swaps that the table counts. -/
theorem movePrice_iff_swapCount (hs : t.Serves d) {source target : Stop}
    (hsource : source ∈ stops d.size) (htarget : target ∈ stops d.size) {m : Nat} :
    movePrice? t costs source target = some m ↔
      ∃ k, t.swapCount source.assignment target.assignment = .ok k ∧ costs.swap * k = m := by
  have hS := isArrangement_assignment hsource
  have hT := isArrangement_assignment htarget
  rw [movePrice_iff hs hsource htarget]
  simp only [hs.swapCount_eq_ok_iff hS hT, Nat.mul_comm costs.swap]

theorem Priced.schedule (hs : t.Serves d) {pairs : List Pair} {route : List Stop} {c : Nat}
    (h : Priced d costs t pairs route c) :
    Schedule d costs t pairs.reverse (route.map Stop.mapping).reverse c := by
  induction h with
  | first hstop hg =>
    obtain ⟨op, hcalled, rfl⟩ := (stopPrice_iff hstop).1 hg
    exact .first (mem_stops_iff.1 hstop).1 hcalled
  | @next ps last earlier c p stop m g hpriced hstop hm hg ih =>
    have hlast := hpriced.mem_stops last List.mem_cons_self
    obtain ⟨k, hk, rfl⟩ := (movePrice_iff_swapCount hs hlast hstop).1 hm
    obtain ⟨op, hcalled, rfl⟩ := (stopPrice_iff hstop).1 hg
    rw [(mem_stops_iff.1 hlast).2, (mem_stops_iff.1 hstop).2] at hk
    simp only [List.map_cons, List.reverse_cons, List.append_assoc, List.cons_append,
      List.nil_append] at ih ⊢
    exact .next ih (mem_stops_iff.1 hstop).1 hk hcalled

theorem Schedule.priced (hs : t.Serves d) {pairs : List Pair} {Ms : List (List Nat)} {c : Nat}
    (h : Schedule d costs t pairs Ms c) :
    Priced d costs t pairs.reverse (Ms.reverse.map stopAt) c := by
  induction h with
  | first hM hcalled =>
    have hstop := stopAt_mem_stops hM
    exact .first hstop ((stopPrice_iff hstop).2 ⟨_, hcalled, rfl⟩)
  | @next ps Ms N M c k p op _ hM hk hcalled ih =>
    have hstop := stopAt_mem_stops hM
    simp only [List.reverse_append, List.reverse_cons, List.reverse_nil, List.nil_append,
      List.cons_append, List.map_cons] at ih ⊢
    have hlast := ih.mem_stops (stopAt N) List.mem_cons_self
    exact .next ih hstop ((movePrice_iff_swapCount hs hlast hstop).2 ⟨k, hk, rfl⟩)
      ((stopPrice_iff hstop).2 ⟨op, hcalled, rfl⟩)

end Schedules

/-! ## Solutions -/

/-- **Ties are broken canonically.** The mappings at which a solution runs the last gates of its
steps begin with its initial mapping and make up a schedule of its cost. No schedule costs less, and
every other one of the same cost comes later if both are read from the last mapping to the first and
compared by rank. -/
theorem solve_canonical {d : Device} {costs : CostModel} {deps : Dependencies} {s : Solution}
    (hne : deps ≠ []) (h : solve d costs none deps = .ok s) :
    ∃ pairs t, deps.pairs = .ok pairs ∧ SwapTable.build d = .ok t ∧
      (gateMappings s.initial s.steps).head? = some s.initial ∧
      Schedule d costs t pairs (gateMappings s.initial s.steps) s.cost ∧
      ∀ Ms c, Schedule d costs t pairs Ms c →
        s.cost ≤ c ∧
        (c = s.cost → Ms = gateMappings s.initial s.steps ∨
          Precedes (gateMappings s.initial s.steps).reverse Ms.reverse) := by
  obtain ⟨t, pairs, trail, htable, hs, hpairs, hbest, hcost, hpriced, hsolves, hgates, hhead⟩ :=
    trail_of_solve (fun _ h => (by cases h)) hne h
  have hfits : trail.cost < sumMax := by
    have hlt := hsolves.fits
    rw [sumMax]
    omega
  have hschedule := hpriced.schedule hs
  rw [List.reverse_reverse, ← List.map_reverse, ← hgates] at hschedule
  refine ⟨pairs, t, hpairs, ofDevice_eq_ok_iff.1 htable, hhead, hschedule, fun Ms c hother => ?_⟩
  have hother' := hother.priced hs
  have hback : (Ms.reverse.map stopAt).map Stop.mapping = Ms.reverse := by
    rw [List.map_map]
    exact List.map_id _
  refine ⟨hcost.trans_le (bestTrail_le hbest hother'), ?_⟩
  rintro rfl
  rw [hgates, List.map_reverse, List.reverse_reverse]
  rcases bestTrail_precedes hbest hfits hother' hcost.le with hsame | hprecedes
  · left
    rw [hsame, hback, List.reverse_reverse]
  · right
    rw [hback] at hprecedes
    exact hprecedes

/-- Two dependencies on a chain of three qubits where swaps are free: a pair and the same turned
around can be met at no price at either end of the chain. The solution ends at the mapping of rank
two, the lowest at which the second runs along an edge, and begins at that of rank zero. -/
theorem solve_canonical_chain :
    let d := Device.ofNodup 3 [(0, 1), (1, 2)] (by decide) (by decide)
    let costs : CostModel := ⟨0, 4, 10⟩
    let deps : Dependencies := [⟨0, [⟨0, 1⟩]⟩, ⟨1, [⟨1, 0⟩]⟩]
    let pairs : List Pair := [⟨0, 1⟩, ⟨1, 0⟩]
    deps ≠ [] ∧ ∃ s t, solve d costs none deps = .ok s ∧ SwapTable.build d = .ok t ∧
      s.initial = [0, 1, 2] ∧ s.cost = 0 ∧
      gateMappings s.initial s.steps = [[0, 1, 2], [1, 0, 2]] ∧
      Schedule d costs t pairs [[0, 1, 2], [1, 0, 2]] 0 ∧
      Schedule d costs t pairs [[1, 2, 0], [2, 1, 0]] 0 ∧
      ∀ Ms, Schedule d costs t pairs Ms 0 →
        Ms = [[0, 1, 2], [1, 0, 2]] ∨ Precedes [[1, 0, 2], [0, 1, 2]] Ms.reverse := by
  intro d costs deps pairs
  have hne : deps ≠ [] := by simp [deps]
  have hsolve : solve d costs none deps = .ok ⟨[0, 1, 2], 0,
      [⟨0, [.cnot 0 1]⟩, ⟨1, [.swap 0 1, .cnot 1 0]⟩]⟩ := by
    decide +kernel
  obtain ⟨pairs', t, hpairs, htable, -, hschedule, hfirst⟩ := solve_canonical hne hsolve
  obtain rfl : pairs = pairs' := by
    cases hpairs
    rfl
  have hcount : t.swapCount (inverse [1, 2, 0]) (inverse [2, 1, 0]) = .ok 1 :=
    SwapTable.of_build htable (by decide +kernel)
  have harrangement : ∀ M ∈ [[1, 2, 0], [2, 1, 0]], IsArrangement d.size M := by
    intro M hM
    apply mem_enumerate_iff.1
    revert M
    decide
  have hother : Schedule d costs t ([⟨0, 1⟩] ++ [⟨1, 0⟩]) ([] ++ [[1, 2, 0], [2, 1, 0]])
      (0 + 0 * 1 + 0) := by
    have hstart : Schedule d costs t [⟨0, 1⟩] ([] ++ [[1, 2, 0]]) 0 :=
      .first (harrangement _ (by simp)) ⟨1, 2, rfl, rfl, .plain (by decide)⟩
    exact .next hstart (harrangement _ (by simp)) hcount ⟨1, 2, rfl, rfl, .plain (by decide)⟩
  exact ⟨hne, _, t, hsolve, htable, rfl, rfl, rfl, hschedule, hother,
    fun Ms h => (hfirst Ms 0 h).2 rfl⟩

end QubitAllocation.Exact
