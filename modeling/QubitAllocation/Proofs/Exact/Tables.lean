import QubitAllocation.Proofs.Choice
import QubitAllocation.Strategy.Exact
import Mathlib.Tactic

/-!
# Tables of sources stand for trails

The dynamic programme keeps costs and sources by rank, and follows the sources back in the end. It
could as well carry the trails themselves from layer to layer (`nextLayer`). The trails that tables
stand for are read off by following the sources (`trailsIn`). A layer of tables stands for the next
layer of trails (`trailsIn_layer`), so all layers do (`foldl_nextLayer_trailsIn`), and the trail
that is followed back is the cheapest one that is carried along (`bestTrail?_eq_cheapestTrail?`).
-/

set_option autoImplicit false

namespace QubitAllocation.Exact

/-! ## Trails carried along -/

/-- The cheapest trail that goes on to `target`, whose gate costs `price`. -/
def extend? (t : SwapTable) (costs : CostModel) (trails : List Trail) (target : Stop)
    (price : Nat) : Option Trail :=
  firstLeast Trail.cost <| trails.filterMap fun trail =>
    (movePrice? t costs trail.last target).map fun move =>
      ⟨addCost (addCost trail.cost move) price, target, trail.last :: trail.earlier⟩

/-- The trails that have just run the first pair. -/
def firstLayer (d : Device) (tables : Array (Array (Option Nat))) (costs : CostModel)
    (all : List Stop) (p : Pair) : List Trail :=
  all.filterMap fun stop =>
    (stopPrice? d tables costs p stop).map fun price => ⟨addCost 0 price, stop, []⟩

/-- The trails that have just run a further pair. -/
def nextLayer (d : Device) (tables : Array (Array (Option Nat))) (costs : CostModel)
    (t : SwapTable) (all : List Stop) (trails : List Trail) (p : Pair) : List Trail :=
  all.filterMap fun stop =>
    (stopPrice? d tables costs p stop).bind fun price => extend? t costs trails stop price

/-- The cheapest of the trails that have run all pairs. -/
def cheapestTrail? (d : Device) (costs : CostModel) (t : SwapTable) : List Pair → Option Trail
  | [] => none
  | p :: ps =>
    firstLeast Trail.cost <|
      ps.foldl (nextLayer d d.hopTables costs t (stops d.size))
        (firstLayer d d.hopTables costs (stops d.size) p)

/-! ## Trails read off tables -/

/-- The trails that tables stand for. -/
def trailsIn (all : Array Stop) (values : Array (Option Nat))
    (parents : List (Array (Option Nat))) : List Trail :=
  (entries values).filterMap (trailAt? all parents)

section Tables

variable {all : Array Stop} {values : Array (Option Nat)} {parents : List (Array (Option Nat))}

theorem mem_entries_iff {value rank : Nat} :
    (value, rank) ∈ entries values ↔ values[rank]? = some (some value) := by
  rw [entries, List.mem_filterMap]
  constructor
  · rintro ⟨⟨cell, i⟩, hcell, heq⟩
    obtain ⟨v, rfl, hentry⟩ := Option.map_eq_some_iff.1 heq
    cases hentry
    rw [List.mk_mem_zipIdx_iff_getElem?, Array.getElem?_toList] at hcell
    exact hcell
  · intro h
    refine ⟨(some value, rank), ?_, rfl⟩
    rw [List.mk_mem_zipIdx_iff_getElem?, Array.getElem?_toList]
    exact h

/-- The trails in a layer whose cells are a function of their stops are a function of the stops. -/
theorem trailsIn_map {cell : Stop → Option (Nat × Nat)} {trail : Stop → Option Trail}
    (h : ∀ stop rank, all[rank]? = some stop → trail stop = (cell stop).map fun best =>
      ⟨best.1, stop, (ancestors parents rank).filterMap fun rank => all[rank]?⟩) :
    trailsIn all ((all.map cell).map (Option.map Prod.fst)) parents =
      all.toList.filterMap trail := by
  conv_rhs => rw [← List.zipIdx_map_fst 0 all.toList, List.filterMap_map]
  rw [trailsIn, entries, Array.toList_map, Array.toList_map, List.map_map, List.zipIdx_map,
    List.filterMap_map, List.filterMap_filterMap]
  refine List.filterMap_congr fun entry hentry => ?_
  obtain ⟨stop, rank⟩ := entry
  rw [List.mk_mem_zipIdx_iff_getElem?, Array.getElem?_toList] at hentry
  refine Eq.trans ?_ (h stop rank hentry).symm
  cases hcell : cell stop with
  | none => simp [hcell]
  | some best => simp [hcell, trailAt?, hentry]

/-- To extend the trails is to take the best source. -/
theorem extend?_trailsIn (t : SwapTable) (costs : CostModel) (all : Array Stop)
    (values : Array (Option Nat)) (parents : List (Array (Option Nat))) (target : Stop)
    (price : Nat) :
    extend? t costs (trailsIn all values parents) target price =
      (bestSource? t costs all values target price).map fun best =>
        ⟨best.1, target,
          (best.2 :: ancestors parents best.2).filterMap fun rank => all[rank]?⟩ := by
  rw [extend?, trailsIn, List.filterMap_filterMap, bestSource?]
  refine Eq.trans ?_ (firstLeast_map Trail.cost _ _)
  rw [List.map_filterMap]
  refine congrArg (firstLeast Trail.cost) (List.filterMap_congr fun entry _ => ?_)
  cases hsource : all[entry.2]? with
  | none => simp [trailAt?, hsource]
  | some source =>
    cases hmove : movePrice? t costs source target with
    | none => simp [trailAt?, hsource, hmove]
    | some move => simp [trailAt?, hsource, hmove]

theorem ancestors_map {cell : Stop → Option (Nat × Nat)} {stop : Stop} {rank : Nat}
    {best : Nat × Nat} (hstop : all[rank]? = some stop) (hcell : cell stop = some best) :
    ancestors ((all.map cell).map (Option.map Prod.snd) :: parents) rank =
      best.2 :: ancestors parents best.2 := by
  simp [ancestors, hstop, hcell]

end Tables

section Layers

variable (d : Device) (tables : Array (Array (Option Nat))) (costs : CostModel) (t : SwapTable)
  (all : Array Stop)

/-! ## One layer -/

/-- A layer of tables stands for the next layer of trails. -/
theorem trailsIn_layer (values : Array (Option Nat)) (parents : List (Array (Option Nat)))
    (p : Pair) :
    trailsIn all ((layer d tables costs t all values p).map (Option.map Prod.fst))
        ((layer d tables costs t all values p).map (Option.map Prod.snd) :: parents) =
      nextLayer d tables costs t all.toList (trailsIn all values parents) p := by
  refine trailsIn_map fun stop rank hstop => ?_
  -- the trail to a stop goes on from the source in its cell
  have hextend : ((stopPrice? d tables costs p stop).bind fun price =>
      extend? t costs (trailsIn all values parents) stop price) =
      (cell? d tables costs t all values p stop).map fun best =>
        ⟨best.1, stop, (best.2 :: ancestors parents best.2).filterMap fun rank => all[rank]?⟩ := by
    simp only [extend?_trailsIn]
    exact Option.map_bind.symm
  rw [hextend]
  refine Option.map_congr fun best hbest => ?_
  rw [layer, ancestors_map hstop hbest]

/-- Where every stop is free, it is best to stay. -/
theorem bestSource?_free {stop : Stop} (hstop : stop ∈ all) (price : Nat) :
    ∃ source, bestSource? t costs all (Array.replicate all.size (some 0)) stop price =
      some (addCost 0 price, source) := by
  obtain ⟨rank, hrank, rfl⟩ := Array.mem_iff_getElem.1 hstop
  have hstay : (addCost 0 price, rank) ∈
      (entries (Array.replicate all.size (some 0))).filterMap fun entry => do
        let source ← all[entry.2]?
        let move ← movePrice? t costs source all[rank]
        return (addCost (addCost entry.1 move) price, entry.2) := by
    refine List.mem_filterMap.2 ⟨(0, rank), mem_entries_iff.2 ?_, ?_⟩
    · simp [hrank]
    · simp [hrank, movePrice?, addCost]
  obtain ⟨best, hbest⟩ := exists_firstLeast Prod.fst (List.ne_nil_of_mem hstay)
  have hle := firstLeast_le hbest hstay
  refine ⟨best.2, hbest.trans (congrArg some (Prod.ext (Nat.le_antisymm hle ?_) rfl))⟩
  obtain ⟨entry, -, hoffer⟩ := List.mem_filterMap.1 (mem_of_firstLeast hbest)
  obtain ⟨source, -, hoffer⟩ := Option.bind_eq_some_iff.1 hoffer
  obtain ⟨move, -, hoffer⟩ := Option.bind_eq_some_iff.1 hoffer
  cases hoffer
  simp only [addCost]
  omega

/-- The first layer of tables stands for the first layer of trails. -/
theorem trailsIn_free (p : Pair) :
    trailsIn all ((layer d tables costs t all (Array.replicate all.size (some 0)) p).map
        (Option.map Prod.fst)) [] =
      firstLayer d tables costs all.toList p := by
  refine trailsIn_map fun stop rank hstop => ?_
  rw [cell?]
  cases stopPrice? d tables costs p stop with
  | none => rfl
  | some price =>
    obtain ⟨source, hsource⟩ := bestSource?_free costs t all (Array.mem_of_getElem? hstop) price
    simp [hsource, ancestors]

/-! ## All layers -/

/-- From no trails no trail goes on. -/
theorem foldl_nextLayer_nil (all : List Stop) (ps : List Pair) :
    ps.foldl (nextLayer d tables costs t all) [] = [] := by
  have hnext (p : Pair) : nextLayer d tables costs t all [] p = [] := by
    refine List.filterMap_eq_nil_iff.2 fun stop _ => ?_
    cases stopPrice? d tables costs p stop <;> rfl
  induction ps with
  | nil => rfl
  | cons p ps ih => rw [List.foldl_cons, hnext, ih]

/-- A layer without a way to any stop stands for no trails. -/
theorem trailsIn_of_none {next : Array (Option (Nat × Nat))} (h : next.all Option.isNone)
    (parents : List (Array (Option Nat))) :
    trailsIn all (next.map (Option.map Prod.fst)) parents = [] := by
  have hentries : entries (next.map (Option.map Prod.fst)) = [] := by
    refine List.eq_nil_iff_forall_not_mem.2 fun entry hentry => ?_
    have hvalue := mem_entries_iff.1 hentry
    rw [Array.getElem?_map, Option.map_eq_some_iff] at hvalue
    obtain ⟨cell, hcell, hvalue⟩ := hvalue
    have hnone := Array.all_eq_true'.1 h cell (Array.mem_of_getElem? hcell)
    rw [Option.isNone_iff_eq_none.1 hnone] at hvalue
    cases hvalue
  rw [trailsIn, hentries]
  rfl

/-- What all layers of tables stand for. -/
theorem foldl_nextLayer_trailsIn (ps : List Pair) (values : Array (Option Nat))
    (parents : List (Array (Option Nat))) :
    ps.foldl (nextLayer d tables costs t all.toList) (trailsIn all values parents) =
      (layers? d tables costs t all ps values parents).elim [] fun final =>
        trailsIn all final.1 final.2 := by
  induction ps generalizing values parents with
  | nil => rfl
  | cons p ps ih =>
    rw [List.foldl_cons, ← trailsIn_layer, layers?]
    split
    next hnone =>
      rw [trailsIn_of_none all hnone, foldl_nextLayer_nil]
      rfl
    next => exact ih _ _

/-- The sources of earlier layers stay as they are. -/
theorem layers?_append (ps : List Pair) (values : Array (Option Nat))
    (parents old : List (Array (Option Nat))) :
    layers? d tables costs t all ps values (parents ++ old) =
      (layers? d tables costs t all ps values parents).map fun final =>
        (final.1, final.2 ++ old) := by
  induction ps generalizing values parents with
  | nil => rfl
  | cons p ps ih =>
    rw [layers?, layers?]
    split
    next => rfl
    next => exact ih _ (_ :: parents)

/-- Each table has one value for each stop. -/
theorem size_of_layers {ps : List Pair} {values : Array (Option Nat)}
    {parents : List (Array (Option Nat))} (hsize : values.size = all.size)
    {final : Array (Option Nat) × List (Array (Option Nat))}
    (h : layers? d tables costs t all ps values parents = some final) :
    final.1.size = all.size := by
  induction ps generalizing values parents with
  | nil =>
    cases h
    exact hsize
  | cons p ps ih =>
    rw [layers?] at h
    split at h
    next => cases h
    next => exact ih (by simp [layer]) h

/-- The trail followed back from the least value is the cheapest of those the tables stand for. -/
theorem firstLeast_trailsIn {values : Array (Option Nat)} (hsize : values.size = all.size)
    (parents : List (Array (Option Nat))) :
    firstLeast Trail.cost (trailsIn all values parents) =
      (firstLeast Prod.fst (entries values)).bind (trailAt? all parents) := by
  refine firstLeast_bind fun entry hentry => ?_
  obtain ⟨hrank, -⟩ := Array.getElem?_eq_some_iff.1 (mem_entries_iff.1 hentry)
  rw [trailAt?, Array.getElem?_eq_getElem (hsize ▸ hrank)]
  exact ⟨_, rfl, rfl⟩

/-- The trail that is followed back through all layers is the cheapest one that is carried along. -/
theorem followed_eq_carried (p : Pair) (ps : List Pair) :
    ((layers? d tables costs t all (p :: ps) (Array.replicate all.size (some 0)) []).bind
        fun final => (firstLeast Prod.fst (entries final.1)).bind
          (trailAt? all final.2.dropLast)) =
      firstLeast Trail.cost (ps.foldl (nextLayer d tables costs t all.toList)
        (firstLayer d tables costs all.toList p)) := by
  rw [← trailsIn_free d tables costs t, layers?]
  split
  next hnone =>
    rw [trailsIn_of_none all hnone, foldl_nextLayer_nil]
    rfl
  next =>
    -- the sources of the first layer stand last, where they are dropped
    rw [foldl_nextLayer_trailsIn, ← List.nil_append [_], layers?_append]
    cases hfinal : layers? d tables costs t all ps _ [] with
    | none => rfl
    | some final =>
      have hsize := size_of_layers d tables costs t all (by simp [layer]) hfinal
      simp only [Option.map_some, Option.bind_some, List.dropLast_concat]
      exact (firstLeast_trailsIn all hsize final.2).symm

end Layers

/-- **The programme's trail is the cheapest of all that are carried along.** -/
theorem bestTrail?_eq_cheapestTrail? (d : Device) (costs : CostModel) (t : SwapTable)
    (pairs : List Pair) : bestTrail? d costs t pairs = cheapestTrail? d costs t pairs := by
  cases pairs with
  | nil => rfl
  | cons p ps => exact followed_eq_carried d d.hopTables costs t (stops d.size).toArray p ps

end QubitAllocation.Exact
