import QubitAllocation.Proofs.Exact.Tables
import Mathlib.Tactic

/-!
# The dynamic programme finds the cheapest trail

`Priced d costs t pairs stops c` says that the pairs can be met at the stops, both latest first, for
exactly `c`: the gates at the stops and the moves between them. After each layer of the dynamic
programme every trail is priced, and every priced sequence of stops is matched by a trail to the
same last stop that costs no more (`LayerInv`). So the trail that is chosen in the end costs no more
than any sequence of stops (`bestTrail_le`), and none is chosen only if there is no sequence
(`not_priced_of_bestTrail_none`).

Sums stop at `sumMax`, so a trail's cost is the exact price or a lower number that is `sumMax` or
more (`Capped`).
-/

set_option autoImplicit false

namespace QubitAllocation.Exact

/-- `cost` is the exact price, or both are too large. -/
def Capped (cost c : Nat) : Prop := cost = c ∨ sumMax ≤ cost ∧ cost ≤ c

theorem Capped.le {cost c : Nat} (h : Capped cost c) : cost ≤ c := by
  rcases h with rfl | ⟨-, h⟩
  · exact Nat.le_refl _
  · exact h

/-- A cost that fits has not been capped. -/
theorem Capped.eq_of_lt {cost c : Nat} (h : Capped cost c) (hfits : cost < 2 ^ 32) : cost = c := by
  rcases h with h | ⟨hlarge, -⟩
  · exact h
  · rw [sumMax] at hlarge
    omega

theorem Capped.add {cost c : Nat} (h : Capped cost c) (m g : Nat) :
    Capped (addCost (addCost cost m) g) (c + m + g) := by
  simp only [Capped, addCost] at h ⊢
  omega

theorem capped_addCost_zero (g : Nat) : Capped (addCost 0 g) g := by
  simp only [Capped, addCost]
  omega

theorem addCost_le (a b : Nat) : addCost a b ≤ a + b := Nat.min_le_left _ _

section Trails

variable (d : Device) (costs : CostModel) (t : SwapTable)

/-- The pairs are met at the stops, both latest first, at an exact price. -/
inductive Priced : List Pair → List Stop → Nat → Prop
  | first {p : Pair} {stop : Stop} {g : Nat} : stop ∈ stops d.size →
      stopPrice? d d.hopTables costs p stop = some g → Priced [p] [stop] g
  | next {ps : List Pair} {last : Stop} {earlier : List Stop} {c : Nat} {p : Pair} {stop : Stop}
      {m g : Nat} : Priced ps (last :: earlier) c → stop ∈ stops d.size →
      movePrice? t costs last stop = some m → stopPrice? d d.hopTables costs p stop = some g →
      Priced (p :: ps) (stop :: last :: earlier) (c + m + g)

/-- After the pairs `done`, latest first: every trail is priced, and every priced sequence of stops
is matched by a trail to its last stop that costs no more. -/
structure LayerInv (done : List Pair) (trails : List Trail) : Prop where
  sound : ∀ trail ∈ trails,
    ∃ c, Priced d costs t done (trail.last :: trail.earlier) c ∧ Capped trail.cost c
  complete : ∀ {last earlier c}, Priced d costs t done (last :: earlier) c →
    ∃ trail ∈ trails, trail.last = last ∧ trail.cost ≤ c

variable {d costs t}

/-! ## One layer -/

theorem layerInv_firstLayer (p : Pair) :
    LayerInv d costs t [p] (firstLayer d d.hopTables costs (stops d.size) p) where
  sound := by
    intro trail htrail
    obtain ⟨stop, hstop, hprice⟩ := List.mem_filterMap.1 htrail
    obtain ⟨g, hg, rfl⟩ := Option.map_eq_some_iff.1 hprice
    exact ⟨g, .first hstop hg, capped_addCost_zero g⟩
  complete := by
    intro last earlier c h
    cases h with
    | first hstop hg =>
      refine ⟨⟨addCost 0 c, last, []⟩, List.mem_filterMap.2 ⟨last, hstop, ?_⟩, rfl,
        (capped_addCost_zero c).le⟩
      rw [hg]
      rfl
    | next hnone _ _ _ => cases hnone

/-- The trails that go on to `target`, whose gate costs `g`; `extend?` takes the cheapest. -/
def extensions (t : SwapTable) (costs : CostModel) (trails : List Trail) (target : Stop)
    (g : Nat) : List Trail :=
  trails.filterMap fun trail =>
    (movePrice? t costs trail.last target).map fun move =>
      ⟨addCost (addCost trail.cost move) g, target, trail.last :: trail.earlier⟩

theorem mem_extensions_iff {trails : List Trail} {target : Stop} {g : Nat} {trail' : Trail} :
    trail' ∈ extensions t costs trails target g ↔
      ∃ trail ∈ trails, ∃ m, movePrice? t costs trail.last target = some m ∧
        trail' = ⟨addCost (addCost trail.cost m) g, target, trail.last :: trail.earlier⟩ := by
  rw [extensions, List.mem_filterMap]
  constructor
  · rintro ⟨trail, htrail, hmove⟩
    obtain ⟨m, hm, rfl⟩ := Option.map_eq_some_iff.1 hmove
    exact ⟨trail, htrail, m, hm, rfl⟩
  · rintro ⟨trail, htrail, m, hm, rfl⟩
    refine ⟨trail, htrail, ?_⟩
    rw [hm]
    rfl

theorem layerInv_nextLayer {q : Pair} {done : List Pair} {trails : List Trail}
    (inv : LayerInv d costs t (q :: done) trails) (p : Pair) :
    LayerInv d costs t (p :: q :: done)
      (nextLayer d d.hopTables costs t (stops d.size) trails p) where
  sound := by
    intro trail' htrail'
    obtain ⟨stop, hstop, hextend⟩ := List.mem_filterMap.1 htrail'
    obtain ⟨g, hg, hextend⟩ := Option.bind_eq_some_iff.1 hextend
    obtain ⟨trail, htrail, m, hm, rfl⟩ := mem_extensions_iff.1 (mem_of_firstLeast hextend)
    obtain ⟨c, hpriced, hcapped⟩ := inv.sound trail htrail
    exact ⟨c + m + g, .next hpriced hstop hm hg, hcapped.add m g⟩
  complete := by
    intro stop earlier c h
    cases h with
    | @next _ last earlier c _ _ m g hpriced hstop hm hg =>
      obtain ⟨trail, htrail, rfl, hcost⟩ := inv.complete hpriced
      -- the matching trail can be extended, so the cheapest extension costs no more
      have hcandidate : ⟨_, stop, _⟩ ∈ extensions t costs trails stop g :=
        mem_extensions_iff.2 ⟨trail, htrail, m, hm, rfl⟩
      obtain ⟨trail', hleast⟩ := exists_firstLeast Trail.cost (List.ne_nil_of_mem hcandidate)
      obtain ⟨source, -, m', -, hsource⟩ := mem_extensions_iff.1 (mem_of_firstLeast hleast)
      have hle := firstLeast_le hleast hcandidate
      have h₁ := addCost_le (addCost trail.cost m) g
      have h₂ := addCost_le trail.cost m
      refine ⟨trail', List.mem_filterMap.2 ⟨stop, hstop, ?_⟩, by rw [hsource], ?_⟩
      · rw [hg]
        exact hleast
      · dsimp only at hle
        omega

/-! ## All layers -/

theorem layerInv_foldl {ps : List Pair} {q : Pair} {done : List Pair} {trails : List Trail}
    (inv : LayerInv d costs t (q :: done) trails) :
    LayerInv d costs t (ps.reverse ++ q :: done)
      (ps.foldl (nextLayer d d.hopTables costs t (stops d.size)) trails) := by
  induction ps generalizing q done trails with
  | nil => exact inv
  | cons p ps ih =>
    rw [List.foldl_cons, List.reverse_cons, List.append_assoc]
    exact ih (layerInv_nextLayer inv p)

/-- The last layer answers for all pairs. -/
theorem layerInv_last (p : Pair) (ps : List Pair) :
    LayerInv d costs t (p :: ps).reverse
      (ps.foldl (nextLayer d d.hopTables costs t (stops d.size))
        (firstLayer d d.hopTables costs (stops d.size) p)) := by
  rw [List.reverse_cons]
  exact layerInv_foldl (layerInv_firstLayer p)

theorem Priced.exists_last {pairs : List Pair} {route : List Stop} {c : Nat}
    (h : Priced d costs t pairs route c) : ∃ last earlier, route = last :: earlier := by
  cases h with
  | first _ _ => exact ⟨_, _, rfl⟩
  | next _ _ _ _ => exact ⟨_, _, rfl⟩

/-- There is one stop for each pair. -/
theorem Priced.length_eq {pairs : List Pair} {route : List Stop} {c : Nat}
    (h : Priced d costs t pairs route c) : pairs.length = route.length := by
  induction h with
  | first _ _ => rfl
  | next _ _ _ _ ih => exact congrArg (· + 1) ih

theorem Priced.mem_stops {pairs : List Pair} {route : List Stop} {c : Nat}
    (h : Priced d costs t pairs route c) : ∀ stop ∈ route, stop ∈ stops d.size := by
  induction h with
  | first hstop _ => exact List.forall_mem_singleton.2 hstop
  | next _ hstop _ _ ih => exact List.forall_mem_cons.2 ⟨hstop, ih⟩

variable {pairs : List Pair} {trail : Trail}

/-- The trail that is chosen is priced. -/
theorem priced_of_bestTrail (h : bestTrail? d costs t pairs = some trail) :
    ∃ c, Priced d costs t pairs.reverse (trail.last :: trail.earlier) c ∧ Capped trail.cost c := by
  rw [bestTrail?_eq_cheapestTrail?] at h
  cases pairs with
  | nil => cases h
  | cons p ps => exact (layerInv_last p ps).sound trail (mem_of_firstLeast h)

/-- **The trail that is chosen costs no more than any sequence of stops.** -/
theorem bestTrail_le (h : bestTrail? d costs t pairs = some trail) {route : List Stop} {c : Nat}
    (hpriced : Priced d costs t pairs.reverse route c) : trail.cost ≤ c := by
  rw [bestTrail?_eq_cheapestTrail?] at h
  cases pairs with
  | nil => cases h
  | cons p ps =>
    obtain ⟨last, earlier, rfl⟩ := hpriced.exists_last
    obtain ⟨trail', htrail', -, hcost⟩ := (layerInv_last p ps).complete hpriced
    exact (firstLeast_le h htrail').trans hcost

/-- No trail is chosen only if there is no sequence of stops. -/
theorem not_priced_of_bestTrail_none (h : bestTrail? d costs t pairs = none) (hne : pairs ≠ [])
    {route : List Stop} {c : Nat} : ¬ Priced d costs t pairs.reverse route c := by
  intro hpriced
  rw [bestTrail?_eq_cheapestTrail?] at h
  cases pairs with
  | nil => exact hne rfl
  | cons p ps =>
    obtain ⟨last, earlier, rfl⟩ := hpriced.exists_last
    obtain ⟨trail', htrail', -, -⟩ := (layerInv_last p ps).complete hpriced
    obtain ⟨best, hbest⟩ := exists_firstLeast Trail.cost (List.ne_nil_of_mem htrail')
    have hsome : cheapestTrail? d costs t (p :: ps) = some best := hbest
    rw [h] at hsome
    cases hsome

end Trails

/-! ## Trails read forwards -/

section Follows

variable (d : Device) (costs : CostModel) (t : SwapTable)

/-- From a stop the pairs are met at further stops, in order, at an exact price. -/
inductive Follows : Stop → List (Pair × Stop) → Nat → Prop
  | nil (stop : Stop) : Follows stop [] 0
  | cons {source stop : Stop} {p : Pair} {rest : List (Pair × Stop)} {m g c : Nat} :
      stop ∈ stops d.size → movePrice? t costs source stop = some m →
      stopPrice? d d.hopTables costs p stop = some g → Follows stop rest c →
      Follows source ((p, stop) :: rest) (m + g + c)

variable {d costs t}

theorem movePrice_self (t : SwapTable) (costs : CostModel) (stop : Stop) :
    movePrice? t costs stop stop = some 0 :=
  if_pos rfl

/-- What was met so far and what follows make up one sequence. -/
theorem Priced.follows {pairs : List Pair} {last : Stop} {earlier : List Stop} {c : Nat}
    (h : Priced d costs t pairs (last :: earlier) c) {rest : List (Pair × Stop)} {c' : Nat}
    (hrest : Follows d costs t last rest c') :
    ∃ first, (last :: earlier).getLast? = some first ∧
      Follows d costs t first ((pairs.zip (last :: earlier)).reverse ++ rest) (c + c') := by
  -- each stop passes over from what was met to what follows; the price stays the same
  generalize hroute : last :: earlier = route at h
  induction h generalizing last earlier rest c' with
  | @first p stop g hstop hg =>
    cases hroute
    refine ⟨stop, rfl, ?_⟩
    have h := Follows.cons hstop (movePrice_self t costs stop) hg hrest
    rw [Nat.zero_add] at h
    exact h
  | @next ps last₀ earlier₀ c p stop m g hpriced hstop hm hg ih =>
    cases hroute
    obtain ⟨first, hfirst, hfollows⟩ := ih (.cons hstop hm hg hrest) rfl
    refine ⟨first, ?_, ?_⟩
    · rw [List.getLast?_cons, hfirst]
      rfl
    · rw [List.zip_cons_cons, List.reverse_cons, List.append_assoc, List.singleton_append]
      have hsum : c + m + g + c' = c + (m + g + c') := by omega
      rw [hsum]
      exact hfollows

/-- What follows can be added to what was met so far. -/
theorem Follows.priced {pairs : List Pair} {last : Stop} {earlier : List Stop} {c : Nat}
    (h : Priced d costs t pairs (last :: earlier) c) {rest : List (Pair × Stop)} {c' : Nat}
    (hrest : Follows d costs t last rest c') :
    ∃ route, Priced d costs t ((rest.map Prod.fst).reverse ++ pairs) route (c + c') := by
  induction hrest generalizing pairs earlier c with
  | nil stop => exact ⟨_, h⟩
  | cons hstop hm hg _ ih =>
    obtain ⟨route, hroute⟩ := ih (.next h hstop hm hg)
    refine ⟨route, ?_⟩
    rw [List.map_cons, List.reverse_cons, List.append_assoc, List.singleton_append,
      ← Nat.add_assoc, ← Nat.add_assoc]
    exact hroute

end Follows

end QubitAllocation.Exact
