import QubitAllocation.Proofs.Exact.Soundness
import QubitAllocation.Proofs.Safety.Basic
import QubitAllocation.Proofs.TokenQuery

/-!
# Exact allocation is proper

The dynamic programme may be given a swap table that was built for another device. If that device
has as many qubits, the table is taken as it is: it counts swaps that this device may not allow, but
they join qubits of this device, and that is all that writing them down asks for (`exists_moveOps`).
So the dynamic programme is proper with any table that was built (`Exact.proper_solve`).

`Exact.InRange` collects the look-ups that the programme makes on the way: the number of swaps
between any two stops, the places of a pair's qubits at a stop and their entry in the hop tables,
and the stop before each stop of the trail that is chosen.
-/

set_option autoImplicit false

namespace QubitAllocation.Exact

open Arrangement Outcome Search

/-! ## Tables of other devices -/

section Tables

variable {d other : Device} {costs : CostModel} {t : SwapTable} {shared : Option SwapTable}
  {source target : Stop}

/-- The table that is chosen serves some device with as many qubits. -/
theorem exists_serves_of_chooseTable
    (hshared : ∀ t, shared = some t → ∃ other, SwapTable.build other = .ok t)
    (h : chooseTable d shared = .ok t) :
    ∃ other : Device, other.size = d.size ∧ t.Serves other := by
  have hserves {other : Device} (hbuild : SwapTable.build other = .ok t) : t.Serves other :=
    SwapTable.serves_of_build hbuild rfl fun _ _ => Iff.rfl
  unfold chooseTable at h
  split at h
  next t' =>
    split_ifs at h with hsize
    · cases h
      obtain ⟨other, hbuild⟩ := hshared t rfl
      exact ⟨other, (hserves hbuild).size_eq.symm.trans hsize, hserves hbuild⟩
    · exact ⟨d, rfl, hserves (ofDevice_eq_ok_iff.1 h)⟩
  next => exact ⟨d, rfl, hserves (ofDevice_eq_ok_iff.1 h)⟩

/-- A device with qubits is refused a table only if it is too large. -/
theorem proper_chooseTable (hpos : 0 < d.size) : Proper (chooseTable d shared) := by
  have hown : Proper (AllocError.ofDevice (SwapTable.build d)) := by
    rcases Nat.lt_or_ge SwapTable.maxSize d.size with hlarge | hmax
    · rw [SwapTable.build, if_pos hlarge]
      exact proper_error_iff.2 rfl
    · obtain ⟨t, hbuild⟩ := SwapTable.exists_build_iff.2 ⟨hpos, hmax⟩
      rw [hbuild]
      exact proper_ok t
  unfold chooseTable
  split
  · split_ifs
    · exact proper_ok _
    · exact hown
  · exact hown

/-- Swaps of qubits of the device can be written down. -/
theorem exists_swapOps {swaps : List (Nat × Nat)} {A : List Nat}
    (hswaps : ∀ m ∈ swaps, m.1 < A.length ∧ m.2 < A.length) :
    ∃ ops, swapOps d swaps A = .ok ops := by
  induction swaps generalizing A with
  | nil => exact ⟨[], rfl⟩
  | cons m swaps ih =>
    obtain ⟨hm, hswaps⟩ := List.forall_mem_cons.1 hswaps
    generalize horient : (if d.isReverseEdge m.1 m.2 then (m.2, m.1) else m) = uv
    -- whichever way the swap is written, it names the same qubits
    have huv : uv.1 < A.length ∧ uv.2 < A.length := by
      rw [← horient]
      split_ifs
      · exact hm.symm
      · exact hm
    obtain ⟨ops, hops⟩ : ∃ ops, swapOps d swaps (exchange A uv.1 uv.2) = .ok ops := by
      refine ih fun m hm => ?_
      rw [length_exchange]
      exact hswaps m hm
    refine ⟨.swap A[uv.1] A[uv.2] :: ops, ?_⟩
    rw [swapOps, horient]
    exact bind_eq_ok_iff.2 ⟨_, lookup_eq_ok_iff.2 (List.getElem?_eq_getElem huv.1),
      bind_eq_ok_iff.2 ⟨_, lookup_eq_ok_iff.2 (List.getElem?_eq_getElem huv.2),
        bind_eq_ok_iff.2 ⟨ops, hops, rfl⟩⟩⟩

/-- A move that was priced can be written down, whichever device the table is for. -/
theorem exists_moveOps (hs : t.Serves other) (hsize : other.size = d.size)
    (hsource : source ∈ stops d.size) (htarget : target ∈ stops d.size) {m : Nat}
    (h : movePrice? t costs source target = some m) :
    ∃ ops, moveOps d t source target = .ok ops := by
  have hlen := (isArrangement_assignment hsource).length_eq
  have hsource' := hsource
  have htarget' := htarget
  rw [← hsize] at hsource' htarget'
  -- the swaps are found on the other device, whose qubits are those of this one
  obtain ⟨k, hk, -⟩ := (movePrice_iff hs hsource' htarget').1 h
  obtain ⟨swaps, hfind, -, -, hcoupled⟩ :=
    hs.find_of_isDepth (isArrangement_assignment hsource') (isArrangement_assignment htarget') hk
  have hswaps : ∀ m ∈ swaps, m.1 < source.assignment.length ∧ m.2 < source.assignment.length := by
    intro m hm
    rw [hlen, ← hsize]
    exact (hcoupled m hm).lt
  obtain ⟨ops, hops⟩ := exists_swapOps (d := d) hswaps
  unfold moveOps
  split_ifs
  · exact ⟨[], rfl⟩
  · exact ⟨ops, bind_eq_ok_iff.2 ⟨swaps, ofDevice_eq_ok_iff.2 hfind, hops⟩⟩

end Tables

/-! ## Steps along a trail -/

section Steps

variable {d other : Device} {costs : CostModel} {t : SwapTable}

/-- The steps along stops that were priced can be written down. -/
theorem exists_steps (hs : t.Serves other) (hsize : other.size = d.size) {source : Stop}
    (hsource : source ∈ stops d.size) {deps : Dependencies} {rest : List (Pair × Stop)} {c : Nat}
    (hpairs : List.Forall₂ (fun dep p => dep.pairs = [p]) deps (rest.map Prod.fst))
    (h : Follows d costs t source rest c) :
    ∃ sts, steps d t (some source) (deps.zip (rest.map Prod.snd)) = .ok sts := by
  induction h generalizing deps with
  | nil source =>
    rw [List.map_nil, List.forall₂_nil_right_iff] at hpairs
    subst hpairs
    exact ⟨[], rfl⟩
  | @cons source stop p rest m g c hstop hm hg _ ih =>
    rw [List.map_cons, List.forall₂_cons_right_iff] at hpairs
    obtain ⟨dep, deps, hp, hpairs, rfl⟩ := hpairs
    obtain ⟨moves, hmoves⟩ := exists_moveOps hs hsize hsource hstop hm
    obtain ⟨gate, hgate, -⟩ := gate_of_stopPrice hstop hg
    obtain ⟨sts, hsts⟩ := ih hstop hpairs
    refine ⟨⟨dep.callPoint, moves ++ [gate]⟩ :: sts, ?_⟩
    rw [List.map_cons, List.zip_cons_cons, steps]
    exact bind_eq_ok_iff.2 ⟨p, Dependency.pair_eq_ok_iff.2 hp, bind_eq_ok_iff.2 ⟨moves, hmoves,
      bind_eq_ok_iff.2 ⟨gate, hgate, bind_eq_ok_iff.2 ⟨sts, hsts, rfl⟩⟩⟩⟩

/-- The trail that is chosen can be written down from its first stop on. -/
theorem exists_steps_of_bestTrail (hs : t.Serves other) (hsize : other.size = d.size)
    {deps : Dependencies} {pairs : List Pair} {trail : Trail}
    (hpairs : List.Forall₂ (fun dep p => dep.pairs = [p]) deps pairs)
    (h : bestTrail? d costs t pairs = some trail) :
    ∃ first sts, (trail.last :: trail.earlier).reverse.head? = some first ∧
      steps d t none (deps.zip (trail.last :: trail.earlier).reverse) = .ok sts := by
  obtain ⟨first, c, hhead, hmem, hlen, hfollows, -⟩ := follows_of_bestTrail h
  rw [← List.map_fst_zip hlen.le] at hpairs
  obtain ⟨sts, hsts⟩ := exists_steps hs hsize hmem hpairs hfollows
  rw [List.map_snd_zip hlen.ge] at hsts
  exact ⟨first, sts, hhead, (steps_none_eq hhead deps).trans hsts⟩

end Steps

section Solve

variable {d : Device} {shared : Option SwapTable}

/-- **Exact allocation is proper**, whichever device the shared table was built for. -/
theorem proper_solve (costs : CostModel)
    (hshared : ∀ t, shared = some t → ∃ other, SwapTable.build other = .ok t)
    (deps : Dependencies) : Proper (solve d costs shared deps) := by
  refine (deps.proper_validate d.size).bind fun _ hvalid => ?_
  by_cases hne : deps = []
  · -- no table is asked for, so the device may be without qubits
    subst hne
    exact proper_ok _
  rw [List.isEmpty_eq_false_iff.2 hne, if_neg Bool.false_ne_true]
  refine (proper_chooseTable (Dependencies.pos_of_validate hvalid hne)).bind fun t htable => ?_
  refine deps.proper_pairs.bind fun pairs hpairs => ?_
  cases hbest : bestTrail? d costs t pairs with
  | none => exact proper_error_iff.2 rfl
  | some trail =>
    obtain ⟨other, hsize, hs⟩ := exists_serves_of_chooseTable hshared htable
    obtain ⟨first, sts, hhead, hsts⟩ :=
      exists_steps_of_bestTrail hs hsize (Dependencies.pairs_eq_ok_iff.1 hpairs) hbest
    refine (proper_narrowCost _).bind fun _ _ => (proper_lookup hhead).bind fun _ _ => ?_
    exact (proper_of_exists ⟨sts, hsts⟩).bind fun _ _ => proper_pure _

/-! ## Look-ups on the way -/

/-- What the dynamic programme looks up is there: the number of swaps between two stops, unless no
swaps lead from one to the other; at every stop the places of a pair's qubits and their entry in the
hop tables; and the sources that are followed back, since a source that is missing would leave the
trail that is chosen with fewer stops than there are pairs. -/
structure InRange (d : Device) (costs : CostModel) (t : SwapTable) (pairs : List Pair) : Prop where
  counted : ∀ source ∈ stops d.size, ∀ target ∈ stops d.size,
    (∃ k, t.swapCount source.assignment target.assignment = .ok k) ∨
      ∃ values, t.swapCount source.assignment target.assignment =
        .error (.permutationUnreachable values)
  placed : ∀ stop ∈ stops d.size, ∀ p ∈ pairs, ∃ u v row, stop.mapping[p.control]? = some u ∧
    stop.mapping[p.target]? = some v ∧ d.hopTables[u]? = some row ∧ v < row.size
  chained : ∀ trail, bestTrail? d costs t pairs = some trail →
    (trail.last :: trail.earlier).length = pairs.length ∧
      ∀ stop ∈ trail.last :: trail.earlier, stop ∈ stops d.size

/-- **Every look-up of the dynamic programme is in range.** -/
theorem inRange_of_chooseTable {t : SwapTable} {deps : Dependencies} {pairs : List Pair}
    (costs : CostModel)
    (hshared : ∀ t, shared = some t → ∃ other, SwapTable.build other = .ok t)
    (hvalid : deps.validate d.size = .ok ()) (htable : chooseTable d shared = .ok t)
    (hpairs : deps.pairs = .ok pairs) : InRange d costs t pairs where
  counted := by
    intro source hsource target htarget
    obtain ⟨other, hsize, hs⟩ := exists_serves_of_chooseTable hshared htable
    rw [← hsize] at hsource htarget
    have hS := isArrangement_assignment hsource
    have hT := isArrangement_assignment htarget
    by_cases hlinked : ∃ k, Walk other.swapNext source.assignment k target.assignment
    · obtain ⟨j, hj⟩ := hlinked
      obtain ⟨k, -, hk⟩ := hj.exists_isDepth
      exact Or.inl ⟨k, hs.swapCount_of_isDepth hS hT hk⟩
    · exact Or.inr ⟨_, (hs.unreachable hS hT (not_exists.1 hlinked)).2⟩
  placed := by
    intro stop hstop p hp
    obtain ⟨hcontrol, htarget, -⟩ := Dependencies.bounds_of_validate hvalid hpairs p hp
    have hM := (mem_stops_iff.1 hstop).1
    obtain ⟨u, hu⟩ := hM.exists_entry hcontrol
    obtain ⟨v, hv⟩ := hM.exists_entry htarget
    refine ⟨u, v, d.hops u, hu, hv, ?_, ?_⟩
    · rw [Device.hopTables, Array.getElem?_map, Array.getElem?_range, if_pos (hM.entry_lt hu)]
      rfl
    · rw [Device.size_hops (hM.entry_lt hu)]
      exact hM.entry_lt hv
  chained := by
    intro trail htrail
    obtain ⟨c, hpriced, -⟩ := priced_of_bestTrail htrail
    exact ⟨by rw [← hpriced.length_eq, List.length_reverse], hpriced.mem_stops⟩

end Solve

end QubitAllocation.Exact
