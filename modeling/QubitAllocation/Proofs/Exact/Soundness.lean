import QubitAllocation.Proofs.Exact.Trail
import QubitAllocation.Proofs.Gate
import QubitAllocation.Proofs.Replay.Judgement
import QubitAllocation.Proofs.Replay.SwapRun
import Mathlib

/-!
# Exact solutions replay at their cost

The steps that are emitted along a trail can be run from its first stop, lead through its stops, and
cost exactly what the trail was priced at (`steps_of_follows`): a move becomes a shortest list of
swaps, written on what the physical qubits hold, and the gate at a stop is the one that was priced.
So a solution replays at the cost it reports, and its steps meet the dependencies one by one in
order (`solve_replays`). This holds with the device's own swap table and with one that serves it.
-/

set_option autoImplicit false

namespace QubitAllocation.Exact

open Arrangement Outcome Replay Search

/-! ## Stops -/

theorem mem_stops_iff {n : Nat} {stop : Stop} :
    stop ∈ stops n ↔ IsArrangement n stop.mapping ∧ stop.assignment = inverse stop.mapping := by
  rw [stops, List.mem_map]
  constructor
  · rintro ⟨M, hM, rfl⟩
    exact ⟨mem_enumerate_iff.1 hM, rfl⟩
  · rintro ⟨hM, hassign⟩
    refine ⟨stop.mapping, mem_enumerate_iff.2 hM, ?_⟩
    rw [← hassign]

section Moves

variable {d : Device} {costs : CostModel} {t : SwapTable} {source target : Stop}

theorem isArrangement_assignment (h : source ∈ stops d.size) :
    IsArrangement d.size source.assignment := by
  obtain ⟨hM, hassign⟩ := mem_stops_iff.1 h
  rw [hassign]
  exact hM.inverse

/-- A move is priced by the least number of swaps between the stops. -/
theorem movePrice_iff (hs : t.Serves d) (hsource : source ∈ stops d.size)
    (htarget : target ∈ stops d.size) {m : Nat} :
    movePrice? t costs source target = some m ↔
      ∃ k, IsDepth d.swapNext source.assignment k target.assignment ∧ k * costs.swap = m := by
  by_cases heq : source = target
  · subst heq
    rw [movePrice_self, Option.some_inj]
    constructor
    · rintro rfl
      exact ⟨0, ⟨.refl, fun j _ => Nat.zero_le j⟩, Nat.zero_mul _⟩
    · rintro ⟨k, hk, rfl⟩
      rw [Nat.le_zero.1 (hk.2 0 .refl), Nat.zero_mul]
  · rw [movePrice?, if_neg heq, Option.map_eq_some_iff]
    simp only [hs.distance_iff (isArrangement_assignment hsource)
      (isArrangement_assignment htarget)]

/-- Any walk of swaps between two stops bounds the price of the move. -/
theorem movePrice_of_walk (costs : CostModel) (hs : t.Serves d) (hsource : source ∈ stops d.size)
    (htarget : target ∈ stops d.size) {k : Nat}
    (h : Walk d.swapNext source.assignment k target.assignment) :
    ∃ m, movePrice? t costs source target = some m ∧ m ≤ k * costs.swap := by
  obtain ⟨j, hle, hj⟩ := h.exists_isDepth
  exact ⟨j * costs.swap, (movePrice_iff hs hsource htarget).2 ⟨j, hj, rfl⟩,
    Nat.mul_le_mul_right _ hle⟩

/-! ## Emitted swaps -/

/-- Coupled qubits stay coupled, whichever way their swap is written. -/
theorem coupled_orient {u v : Nat} (h : d.Coupled u v) :
    d.Coupled (if d.isReverseEdge u v then (v, u) else (u, v)).1
      (if d.isReverseEdge u v then (v, u) else (u, v)).2 := by
  split_ifs
  · exact h.symm
  · exact h

theorem exchange_orient {A : List Nat} {u v : Nat} (hA : A.length = d.size)
    (h : d.Coupled u v) :
    exchange A (if d.isReverseEdge u v then (v, u) else (u, v)).1
      (if d.isReverseEdge u v then (v, u) else (u, v)).2 = exchange A u v := by
  split_ifs
  · exact exchange_comm (by rw [hA]; exact h.lt.2) (by rw [hA]; exact h.lt.1)
  · rfl

/-- The swaps that are emitted can be run and exchange the tokens as listed. -/
theorem swapOps_of_coupled {swaps : List (Nat × Nat)} {M : List Nat}
    (hM : IsArrangement d.size M) (hswaps : ∀ m ∈ swaps, d.Coupled m.1 m.2) :
    ∃ ops M', swapOps d swaps (inverse M) = .ok ops ∧ Runs d M ops M' ∧
      inverse M' = exchangeAll (inverse M) swaps ∧ IsArrangement d.size M' ∧
      (∀ op ∈ ops, op.isSwap = true) ∧ ops.length = swaps.length := by
  induction swaps generalizing M with
  | nil =>
    exact ⟨[], M, rfl, .nil M, rfl, hM, List.forall_mem_nil _, rfl⟩
  | cons m swaps ih =>
    obtain ⟨x, y⟩ := m
    have hxy := hswaps (x, y) List.mem_cons_self
    have hlen := hM.inverse.length_eq
    -- the swap as it is written
    generalize horient : (if d.isReverseEdge x y then (y, x) else (x, y)) = uv
    obtain ⟨u, v⟩ := uv
    have huv : d.Coupled u v := by
      have h := coupled_orient hxy
      rwa [horient] at h
    have hexchange : exchange (inverse M) u v = exchange (inverse M) x y := by
      have h := exchange_orient hlen hxy
      rwa [horient] at h
    obtain ⟨a, ha⟩ := hM.inverse.exists_entry huv.lt.1
    obtain ⟨b, hb⟩ := hM.inverse.exists_entry huv.lt.2
    have hMa : M[a]? = some u := (getElem?_inverse_iff hM).1 ha
    have hMb : M[b]? = some v := (getElem?_inverse_iff hM).1 hb
    have hinv : inverse (exchange M a b) = exchange (inverse M) u v := inverse_exchange hM hMa hMb
    obtain ⟨ops, M', hops, hruns, hM', harr, hall, hcount⟩ :=
      ih (hM.exchange a b) fun m hm => hswaps m (List.mem_cons_of_mem _ hm)
    refine ⟨.swap a b :: ops, M', ?_, ?_, ?_, harr, ?_, ?_⟩
    · rw [swapOps, horient]
      simp only [ha, hb, AllocError.lookup]
      rw [hinv] at hops
      exact bind_eq_ok_iff.2 ⟨a, rfl, bind_eq_ok_iff.2 ⟨b, rfl,
        bind_eq_ok_iff.2 ⟨ops, hops, rfl⟩⟩⟩
    · exact .cons (canRun_of_allows hM hMa hMb huv) hruns
    · rw [hM', hinv, hexchange, exchangeAll, exchangeAll, List.foldl_cons]
    · exact List.forall_mem_cons.2 ⟨rfl, hall⟩
    · rw [List.length_cons, List.length_cons, hcount]

/-- The operations of a move can be run from its source, lead to its target, and are as many swaps
as were priced. -/
theorem moveOps_of_isDepth (hs : t.Serves d) (hsource : source ∈ stops d.size)
    (htarget : target ∈ stops d.size) {k : Nat}
    (hk : IsDepth d.swapNext source.assignment k target.assignment) :
    ∃ ops, moveOps d t source target = .ok ops ∧ Runs d source.mapping ops target.mapping ∧
      (∀ op ∈ ops, op.isSwap = true) ∧ ops.length = k := by
  obtain ⟨hM, hassign⟩ := mem_stops_iff.1 hsource
  obtain ⟨hM', hassign'⟩ := mem_stops_iff.1 htarget
  unfold moveOps
  split_ifs with hsame
  · subst hsame
    have hzero : k = 0 := Nat.le_zero.1 (hk.2 0 .refl)
    exact ⟨[], rfl, .nil _, List.forall_mem_nil _, hzero.symm⟩
  · obtain ⟨swaps, hfind, hlen, hend, hcoupled⟩ :=
      hs.find_of_isDepth (isArrangement_assignment hsource) (isArrangement_assignment htarget) hk
    rw [hassign, hassign'] at hend
    obtain ⟨ops, M', hops, hruns, hinv, harr, hall, hcount⟩ := swapOps_of_coupled hM hcoupled
    -- the swaps lead to the target's assignment, and a mapping is known from its inverse
    have hM'' : M' = target.mapping := by
      rw [← inverse_inverse harr, hinv, hend, inverse_inverse hM']
    refine ⟨ops, ?_, hM'' ▸ hruns, hall, hcount.trans hlen⟩
    rw [← hassign] at hops
    exact bind_eq_ok_iff.2 ⟨swaps, ofDevice_eq_ok_iff.2 hfind, hops⟩

end Moves

/-! ## Emitted steps -/

section Steps

variable {d : Device} {costs : CostModel} {t : SwapTable}

/-- The gate at a stop can be run there and costs what was priced. -/
theorem gate_of_stopPrice {stop : Stop} {p : Pair} {g : Nat} (hstop : stop ∈ stops d.size)
    (h : stopPrice? d d.hopTables costs p stop = some g) :
    ∃ gate, Gate.under d stop.mapping p = .ok gate ∧ CanRun d stop.mapping gate ∧
      gate.isSwap = false ∧ gate.operands = (p.control, p.target) ∧ costs.price gate = g := by
  have hM := (mem_stops_iff.1 hstop).1
  obtain ⟨u, hu, h⟩ := Option.bind_eq_some_iff.1 h
  obtain ⟨v, hv, h⟩ := Option.bind_eq_some_iff.1 h
  obtain ⟨gate, hgate, hrealizes, hprice⟩ :=
    Gate.between_of_gatePrice (p := p) (hM.entry_lt hu) (hM.entry_lt hv) h
  refine ⟨gate, ?_, hrealizes.canRun hM hu hv, hrealizes.not_swap, hrealizes.operands, hprice⟩
  rw [Gate.under, hu, hv]
  exact hgate

/-- **The steps along a trail run through its stops at its price.** -/
theorem steps_of_follows (hs : t.Serves d) {source : Stop} (hsource : source ∈ stops d.size)
    {deps : Dependencies} {rest : List (Pair × Stop)} {c : Nat}
    (hpairs : List.Forall₂ (fun dep p => dep.pairs = [p]) deps (rest.map Prod.fst))
    (h : Follows d costs t source rest c) :
    ∃ sts M, steps d t (some source) (deps.zip (rest.map Prod.snd)) = .ok sts ∧
      Runs d source.mapping (sts.flatMap Step.ops) M ∧
      List.Forall₂ (fun dep step => step.Meets dep) deps sts ∧
      gateMappings source.mapping sts = (rest.map Prod.snd).map Stop.mapping ∧
      ((sts.flatMap Step.ops).map costs.price).sum = c := by
  induction h generalizing deps with
  | nil source =>
    rw [List.map_nil, List.forall₂_nil_right_iff] at hpairs
    subst hpairs
    exact ⟨[], source.mapping, rfl, .nil _, .nil, rfl, rfl⟩
  | @cons source stop p rest m g c hstop hm hg _ ih =>
    rw [List.map_cons, List.forall₂_cons_right_iff] at hpairs
    obtain ⟨dep, deps, hp, hpairs, rfl⟩ := hpairs
    obtain ⟨k, hk, rfl⟩ := (movePrice_iff hs hsource hstop).1 hm
    obtain ⟨moves, hmoves, hruns, hall, hlen⟩ := moveOps_of_isDepth hs hsource hstop hk
    obtain ⟨gate, hgate, hcan, hswap, hoperands, hprice⟩ := gate_of_stopPrice hstop hg
    obtain ⟨sts, M, hsts, hrest, hmeets, hgates, hcost⟩ := ih hstop hpairs
    refine ⟨⟨dep.callPoint, moves ++ [gate]⟩ :: sts, M, ?_, ?_, ?_, ?_, ?_⟩
    · rw [List.map_cons, List.zip_cons_cons, steps]
      exact bind_eq_ok_iff.2 ⟨p, Dependency.pair_eq_ok_iff.2 hp, bind_eq_ok_iff.2 ⟨moves, hmoves,
        bind_eq_ok_iff.2 ⟨gate, hgate, bind_eq_ok_iff.2 ⟨sts, hsts, rfl⟩⟩⟩⟩
    · rw [List.flatMap_cons, List.append_assoc, runs_append_iff]
      refine ⟨stop.mapping, hruns, ?_⟩
      rw [List.singleton_append, runs_cons_iff, after_of_not_isSwap hswap]
      exact ⟨hcan, hrest⟩
    · exact .cons ⟨rfl, p, moves, gate, hp, rfl, hall, hswap, hoperands⟩ hmeets
    · rw [gateMappings_cons hruns hswap, hgates]
      rfl
    · rw [List.flatMap_cons, List.map_append, List.sum_append, hcost, List.map_append,
        List.sum_append, costs.sum_price_of_isSwap hall, hlen]
      simp [hprice]

/-- Starting at the first stop is starting with no move. -/
theorem steps_none_eq {first : Stop} {route : List Stop} (h : route.head? = some first)
    (deps : Dependencies) :
    steps d t none (deps.zip route) = steps d t (some first) (deps.zip route) := by
  cases deps with
  | nil => rfl
  | cons dep deps =>
    obtain ⟨rest, rfl⟩ := List.head?_eq_some_iff.1 h
    have hmoves : moveOps d t first first = .ok [] := if_pos rfl
    simp only [List.zip_cons_cons, steps, hmoves]

/-- Read forwards, the trail that is chosen meets the pairs in their order. -/
theorem follows_of_bestTrail {pairs : List Pair} {trail : Trail}
    (h : bestTrail? d costs t pairs = some trail) :
    ∃ first c, (trail.last :: trail.earlier).reverse.head? = some first ∧
      first ∈ stops d.size ∧ pairs.length = (trail.last :: trail.earlier).reverse.length ∧
      Follows d costs t first (pairs.zip (trail.last :: trail.earlier).reverse) c ∧
      Capped trail.cost c := by
  obtain ⟨c, hpriced, hcapped⟩ := priced_of_bestTrail h
  obtain ⟨first, hfirst, hfollows⟩ := hpriced.follows (.nil _)
  have hlen := hpriced.length_eq
  generalize hroute : trail.last :: trail.earlier = route at *
  have hzip : (pairs.reverse.zip route).reverse = pairs.zip route.reverse := by
    rw [List.zip, List.reverse_zipWith hlen, List.reverse_reverse]
  rw [List.append_nil, Nat.add_zero, hzip] at hfollows
  have hmem := hpriced.mem_stops first (List.mem_of_getLast? hfirst)
  refine ⟨first, c, ?_, hmem, ?_, hfollows, hcapped⟩
  · rw [List.head?_reverse, hfirst]
  · rw [List.length_reverse, ← hlen, List.length_reverse]

/-- A trail that is chosen is turned into steps from its first stop on. -/
theorem steps_of_bestTrail (hs : t.Serves d) {deps : Dependencies} {pairs : List Pair}
    {trail : Trail} (hpairs : List.Forall₂ (fun dep p => dep.pairs = [p]) deps pairs)
    (h : bestTrail? d costs t pairs = some trail) :
    ∃ first sts M, (trail.last :: trail.earlier).reverse.head? = some first ∧
      first ∈ stops d.size ∧
      steps d t none (deps.zip (trail.last :: trail.earlier).reverse) = .ok sts ∧
      Runs d first.mapping (sts.flatMap Step.ops) M ∧
      List.Forall₂ (fun dep step => step.Meets dep) deps sts ∧
      gateMappings first.mapping sts =
        (trail.last :: trail.earlier).reverse.map Stop.mapping ∧
      Capped trail.cost ((sts.flatMap Step.ops).map costs.price).sum := by
  obtain ⟨first, c, hhead, hmem, hlen, hfollows, hcapped⟩ := follows_of_bestTrail h
  rw [← List.map_fst_zip hlen.le] at hpairs
  obtain ⟨sts, M, hsts, hruns, hmeets, hgates, hcost⟩ := steps_of_follows hs hmem hpairs hfollows
  rw [List.map_snd_zip hlen.ge] at hsts hgates
  exact ⟨first, sts, M, hhead, hmem, (steps_none_eq hhead deps).trans hsts, hruns, hmeets,
    hgates, hcost ▸ hcapped⟩

end Steps

/-! ## Solutions -/

section Solutions

variable {d : Device} {costs : CostModel} {t : SwapTable} {shared : Option SwapTable}
  {deps : Dependencies} {pairs : List Pair} {s : Solution}

/-- **The three outcomes of the dynamic programme**: it finds no trail, or its trail costs too much,
or the trail is turned into a solution at its cost, which runs its gates at the stops of the trail
and begins at the first of them. -/
theorem solve_cases (costs : CostModel) (hs : t.Serves d)
    (hvalid : deps.validate d.size = .ok ()) (hne : deps ≠ [])
    (htable : chooseTable d shared = .ok t) (hpairs : deps.pairs = .ok pairs) :
    (bestTrail? d costs t pairs = none ∧
      solve d costs shared deps = .error (.noSolution deps.length)) ∨
    ∃ trail, bestTrail? d costs t pairs = some trail ∧
      (2 ^ 32 ≤ trail.cost ∧ solve d costs shared deps = .error (.costOverflow trail.cost) ∨
        ∃ s, solve d costs shared deps = .ok s ∧ s.cost = trail.cost ∧ Solves d costs deps s ∧
          gateMappings s.initial s.steps =
            (trail.last :: trail.earlier).reverse.map Stop.mapping ∧
          (gateMappings s.initial s.steps).head? = some s.initial) := by
  have hempty : deps.isEmpty = false := List.isEmpty_eq_false_iff.2 hne
  have hsolve : solve d costs shared deps =
      (bestTrail? d costs t pairs).elim (.error (.noSolution deps.length)) fun trail => do
        let cost ← narrowCost trail.cost
        let first ← AllocError.lookup (trail.last :: trail.earlier).reverse.head?
        let steps ← steps d t none (deps.zip (trail.last :: trail.earlier).reverse)
        return ⟨first.mapping, cost, steps⟩ := by
    rw [solve, bind_of_eq_ok hvalid, hempty, if_neg Bool.false_ne_true, bind_of_eq_ok htable]
    refine (bind_of_eq_ok hpairs).trans ?_
    cases bestTrail? d costs t pairs with
    | none => rfl
    | some trail => rfl
  cases hbest : bestTrail? d costs t pairs with
  | none =>
    rw [hbest, Option.elim_none] at hsolve
    exact Or.inl ⟨rfl, hsolve⟩
  | some trail =>
    rw [hbest, Option.elim_some] at hsolve
    refine Or.inr ⟨trail, rfl, ?_⟩
    by_cases hfits : trail.cost < 2 ^ 32
    · obtain ⟨first, sts, M, hhead, hfirst, hsts, hruns, hmeets, hgates, hcapped⟩ :=
        steps_of_bestTrail hs (Dependencies.pairs_eq_ok_iff.1 hpairs) hbest
      refine Or.inr ⟨⟨first.mapping, trail.cost, sts⟩, ?_, rfl, ?_, hgates, ?_⟩
      · rw [hsolve]
        exact bind_eq_ok_iff.2 ⟨_, narrowCost_eq_ok_iff.2 ⟨hfits, rfl⟩, bind_eq_ok_iff.2 ⟨first,
          lookup_eq_ok_iff.2 hhead, bind_eq_ok_iff.2 ⟨sts, hsts, rfl⟩⟩⟩
      · exact ⟨(mem_stops_iff.1 hfirst).1, ⟨M, hruns⟩, hmeets, hcapped.eq_of_lt hfits, hfits⟩
      · rw [hgates, List.head?_map, hhead]
        rfl
    · refine Or.inl ⟨Nat.not_lt.1 hfits, ?_⟩
      simp only [narrowCost_of_le (Nat.not_lt.1 hfits)] at hsolve
      exact hsolve

/-- The table that is chosen serves the device. -/
theorem serves_of_chooseTable
    (hshared : ∀ t', shared = some t' → ∃ d', SwapTable.build d' = .ok t' ∧ d'.size = d.size ∧
      ∀ u v, d'.Coupled u v ↔ d.Coupled u v)
    (h : chooseTable d shared = .ok t) : t.Serves d := by
  have hown : AllocError.ofDevice (SwapTable.build d) = .ok t → t.Serves d := fun hbuild =>
    SwapTable.serves_of_build (ofDevice_eq_ok_iff.1 hbuild) rfl fun _ _ => Iff.rfl
  unfold chooseTable at h
  split at h
  next t' =>
    split_ifs at h with hsize
    · cases h
      obtain ⟨d', hbuild, hsize', hsame⟩ := hshared t rfl
      exact SwapTable.serves_of_build hbuild hsize' hsame
    · exact hown h
  next => exact hown h

/-- A solution of some dependencies comes from a trail, with a table that serves the device. -/
theorem trail_of_solve
    (hshared : ∀ t', shared = some t' → ∃ d', SwapTable.build d' = .ok t' ∧ d'.size = d.size ∧
      ∀ u v, d'.Coupled u v ↔ d.Coupled u v)
    (hne : deps ≠ []) (h : solve d costs shared deps = .ok s) :
    ∃ t pairs trail, chooseTable d shared = .ok t ∧ t.Serves d ∧ deps.pairs = .ok pairs ∧
      bestTrail? d costs t pairs = some trail ∧ s.cost = trail.cost ∧
      Priced d costs t pairs.reverse (trail.last :: trail.earlier) s.cost ∧
      Solves d costs deps s ∧
      gateMappings s.initial s.steps = (trail.last :: trail.earlier).reverse.map Stop.mapping ∧
      (gateMappings s.initial s.steps).head? = some s.initial := by
  obtain ⟨⟨⟩, hvalid, hrest⟩ := bind_eq_ok_iff.1 h
  rw [List.isEmpty_eq_false_iff.2 hne, if_neg Bool.false_ne_true] at hrest
  obtain ⟨t, htable, hrest⟩ := bind_eq_ok_iff.1 hrest
  obtain ⟨pairs, hpairs, -⟩ := bind_eq_ok_iff.1 hrest
  have hs := serves_of_chooseTable hshared htable
  rcases solve_cases costs hs hvalid hne htable hpairs with
    ⟨-, hnone⟩ | ⟨trail, hbest, ⟨-, hlarge⟩ | ⟨s', hs', hcost, hsolves, hgates⟩⟩
  · rw [h] at hnone
    cases hnone
  · rw [h] at hlarge
    cases hlarge
  · rw [h] at hs'
    cases hs'
    obtain ⟨c, hpriced, hcapped⟩ := priced_of_bestTrail hbest
    obtain rfl : s.cost = c := hcost.trans (hcapped.eq_of_lt (hcost ▸ hsolves.fits))
    exact ⟨t, pairs, trail, htable, hs, hpairs, hbest, hcost, hpriced, hsolves, hgates⟩

/-- A solution solves the dependencies. -/
theorem solves_of_solve
    (hshared : ∀ t', shared = some t' → ∃ d', SwapTable.build d' = .ok t' ∧ d'.size = d.size ∧
      ∀ u v, d'.Coupled u v ↔ d.Coupled u v)
    (h : solve d costs shared deps = .ok s) : Solves d costs deps s := by
  by_cases hne : deps = []
  · subst hne
    cases h
    exact ⟨isArrangement_identity d.size, ⟨_, .nil _⟩, .nil, rfl, by norm_num⟩
  · obtain ⟨t, pairs, trail, -, -, -, -, -, -, hsolves, -⟩ := trail_of_solve hshared hne h
    exact hsolves

end Solutions

/-- **Exact solutions replay at their cost**, and their steps meet the dependencies one by one in
order, whether the swap table is the device's own or was built for a device of the same size and
couplings. -/
theorem solve_replays {d : Device} {costs : CostModel} {shared : Option SwapTable}
    {deps : Dependencies} {s : Solution} (hdistinct : (deps.map Dependency.callPoint).Nodup)
    (hshared : ∀ t, shared = some t → ∃ d', SwapTable.build d' = .ok t ∧ d'.size = d.size ∧
      ∀ u v, d'.Coupled u v ↔ d.Coupled u v)
    (h : solve d costs shared deps = .ok s) :
    replay d deps s costs = .ok s.cost ∧
      List.Forall₂ (fun dep step => step.Meets dep) deps s.steps := by
  have hsolves := solves_of_solve hshared h
  exact ⟨hsolves.replay_eq hdistinct, hsolves.meets⟩

/-- Five dependencies on a chain of three qubits, with the table of the chain turned around: a
bridge and a swap are needed. -/
theorem solve_replays_chain :
    let d := Device.ofNodup 3 [(0, 1), (1, 2)] (by decide) (by decide)
    let d' := Device.ofNodup 3 [(1, 0), (2, 1)] (by decide) (by decide)
    let deps : Dependencies := [⟨0, [⟨0, 1⟩]⟩, ⟨1, [⟨1, 2⟩]⟩, ⟨2, [⟨2, 0⟩]⟩, ⟨3, [⟨2, 1⟩]⟩,
      ⟨4, [⟨1, 0⟩]⟩]
    ∃ t s, SwapTable.build d' = .ok t ∧ solve d .standard (some t) deps = .ok s ∧
      replay d deps s .standard = .ok s.cost ∧
      List.Forall₂ (fun dep step => step.Meets dep) deps s.steps := by
  intro d d' deps
  have hcoupled : ∀ u v, d'.Coupled u v ↔ d.Coupled u v := by
    intro u v
    simp only [d, d', Device.Coupled, Device.ofNodup, List.mem_cons, List.not_mem_nil, or_false,
      Prod.mk.injEq]
    tauto
  obtain ⟨t, ht⟩ : ∃ t, SwapTable.build d' = .ok t :=
    SwapTable.exists_build_iff.2 (by decide)
  have hsolve : solve d .standard (some t) deps = .ok ⟨[1, 2, 0], 17,
      [⟨0, [.cnot 0 1]⟩, ⟨1, [.longCnot 1 2 1]⟩, ⟨2, [.cnot 2 0]⟩, ⟨3, [.swap 0 1, .cnot 2 1]⟩,
        ⟨4, [.cnot 1 0]⟩]⟩ :=
    SwapTable.of_build ht (by decide +kernel)
  refine ⟨t, _, ht, hsolve, solve_replays (by decide) ?_ hsolve⟩
  intro t' ht'
  cases ht'
  exact ⟨d', ht, rfl, hcoupled⟩

end QubitAllocation.Exact
