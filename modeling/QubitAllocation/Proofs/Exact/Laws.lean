import QubitAllocation.Proofs.Exact.Canonical

/-!
# Laws of the least cost

Three changes of the dependencies or the prices turn a sequence of stops into another that costs no
more: leaving dependencies out (`Priced.sublist`), lowering the prices (`Priced.lower`), and
renaming the logical qubits (`Priced.rename`). The dynamic programme finds the least price, whatever
stops it is reached at, so it still has a solution, at no higher cost; and as a renaming can be
undone, that cost is the same (`solve_cost_laws`).
-/

set_option autoImplicit false

namespace QubitAllocation

open Arrangement Outcome Search

/-! ## Renamed dependencies -/

/-- The name of a qubit after a renaming; one that has no new name keeps its own. -/
def renamed (names : List Nat) (q : Nat) : Nat := names.getD q q

/-- The pair with its qubits renamed. -/
def Pair.rename (names : List Nat) (p : Pair) : Pair :=
  ⟨renamed names p.control, renamed names p.target⟩

/-- The dependency with all qubits renamed. -/
def Dependency.rename (names : List Nat) (dep : Dependency) : Dependency :=
  ⟨dep.callPoint, dep.pairs.map (Pair.rename names)⟩

/-- The dependencies with all qubits renamed. -/
def Dependencies.rename (names : List Nat) (deps : Dependencies) : Dependencies :=
  deps.map (Dependency.rename names)

section Renaming

variable {n : Nat} {names : List Nat} {q r : Nat}

theorem getElem?_names (hnames : IsArrangement n names) (hq : q < n) :
    names[q]? = some (renamed names q) := by
  obtain ⟨r, hr⟩ := hnames.exists_entry hq
  simp [renamed, hr]

theorem renamed_lt (hnames : IsArrangement n names) (hq : q < n) : renamed names q < n :=
  hnames.entry_lt (getElem?_names hnames hq)

theorem renamed_inj (hnames : IsArrangement n names) (hq : q < n) (hr : r < n)
    (h : renamed names q = renamed names r) : q = r := by
  have hq' := getElem?_names hnames hq
  rw [h] at hq'
  exact hnames.place_unique hq' (getElem?_names hnames hr)

/-- A renaming is undone by its inverse. -/
theorem renamed_inverse (hnames : IsArrangement n names) (hq : q < n) :
    renamed (inverse names) (renamed names q) = q := by
  have hback := (getElem?_inverse_iff hnames).2 (getElem?_names hnames hq)
  rw [renamed, List.getD_eq_getElem?_getD, hback, Option.getD_some]

variable {deps : Dependencies} {pairs : List Pair}

theorem Dependencies.rename_ne_nil (hne : deps ≠ []) : deps.rename names ≠ [] := by
  simpa [Dependencies.rename] using hne

theorem Dependencies.pairs_rename (names : List Nat) (h : deps.pairs = .ok pairs) :
    (deps.rename names).pairs = .ok (pairs.map (Pair.rename names)) := by
  rw [pairs_eq_ok_iff] at h ⊢
  rw [Dependencies.rename, List.forall₂_map_left_iff, List.forall₂_map_right_iff]
  apply h.imp
  intro dep p hp
  simp [Dependency.rename, hp]

theorem Dependencies.validate_rename (hnames : IsArrangement n names)
    (h : deps.validate n = .ok ()) : (deps.rename names).validate n = .ok () := by
  rw [validate_eq_ok_iff] at h ⊢
  intro dep' hdep'
  obtain ⟨dep, hdep, rfl⟩ := List.mem_map.1 hdep'
  obtain ⟨p, hp, hcontrol, htarget, hne⟩ := h dep hdep
  refine ⟨p.rename names, by simp [Dependency.rename, hp], renamed_lt hnames hcontrol,
    renamed_lt hnames htarget, ?_⟩
  exact mt (renamed_inj hnames hcontrol htarget) hne

/-- Valid dependencies come back under their old names. -/
theorem Dependencies.rename_inverse (hnames : IsArrangement n names)
    (h : deps.validate n = .ok ()) : (deps.rename names).rename (inverse names) = deps := by
  rw [validate_eq_ok_iff] at h
  rw [Dependencies.rename, Dependencies.rename, List.map_map]
  conv_rhs => rw [← List.map_id deps]
  apply List.map_congr_left
  intro dep hdep
  obtain ⟨p, hp, hcontrol, htarget, -⟩ := h dep hdep
  obtain ⟨callPoint, pairs⟩ := dep
  subst hp
  simp [Dependency.rename, Pair.rename, renamed_inverse hnames hcontrol,
    renamed_inverse hnames htarget]

end Renaming

/-! ## Lower prices -/

theorem CostModel.price_le {costs costs' : CostModel} (hreverse : costs'.reverse ≤ costs.reverse)
    (hlong : costs'.longCnot ≤ costs.longCnot) (hswap : costs'.swap ≤ costs.swap)
    (op : Operation) : costs'.price op ≤ costs.price op := by
  cases op with
  | swap a b => exact hswap
  | cnot a b => exact le_rfl
  | rev a b => exact hreverse
  | longCnot a b w => exact hlong

namespace Exact

section Sequences

variable {d : Device} {costs costs' : CostModel} {t : SwapTable} {pairs qs : List Pair}
  {route : List Stop} {c : Nat}

/-! ## Leaving dependencies out -/

/-- Going by a third stop is no cheaper. -/
theorem movePrice_trans (hs : t.Serves d) {a b e : Stop} (ha : a ∈ stops d.size)
    (hb : b ∈ stops d.size) (he : e ∈ stops d.size) {m m' : Nat}
    (h : movePrice? t costs a b = some m) (h' : movePrice? t costs b e = some m') :
    ∃ m'', movePrice? t costs a e = some m'' ∧ m'' ≤ m + m' := by
  obtain ⟨k, hk, rfl⟩ := (movePrice_iff hs ha hb).1 h
  obtain ⟨k', hk', rfl⟩ := (movePrice_iff hs hb he).1 h'
  rw [← Nat.add_mul]
  exact movePrice_of_walk costs hs ha he (hk.1.trans hk'.1)

/-- Some of the pairs can be met at some of the stops; what they cost leaves enough to move on to
the last stop. -/
theorem Priced.sublist (hs : t.Serves d) {last : Stop} {earlier : List Stop}
    (h : Priced d costs t pairs (last :: earlier) c) (hsub : qs.Sublist pairs) (hne : qs ≠ []) :
    ∃ last' earlier' c' m, Priced d costs t qs (last' :: earlier') c' ∧
      movePrice? t costs last' last = some m ∧ c' + m ≤ c := by
  generalize hroute : last :: earlier = route at h
  induction h generalizing last earlier qs with
  | @first p stop g hstop hg =>
    cases hroute
    obtain rfl : qs = [p] := (List.sublist_singleton.1 hsub).resolve_left hne
    exact ⟨stop, [], g, 0, .first hstop hg, movePrice_self t costs stop, le_rfl⟩
  | @next ps last₀ earlier₀ c p stop m g hpriced hstop hm hg ih =>
    cases hroute
    have hlast₀ := hpriced.mem_stops last₀ List.mem_cons_self
    cases hsub with
    | cons _ hsub =>
      -- the last pair is left out, and its gate need not be paid
      obtain ⟨last', earlier', c', m', hpriced', hm', hle⟩ := ih hsub hne rfl
      have hlast' := hpriced'.mem_stops last' List.mem_cons_self
      obtain ⟨m'', hm'', hle'⟩ := movePrice_trans hs hlast' hlast₀ hstop hm' hm
      exact ⟨last', earlier', c', m'', hpriced', hm'', by omega⟩
    | @cons_cons qs _ _ hsub =>
      rcases eq_or_ne qs [] with rfl | hne'
      · exact ⟨stop, [], g, 0, .first hstop hg, movePrice_self t costs stop, by omega⟩
      · -- from the last stop that is kept, the move goes straight to this one
        obtain ⟨last', earlier', c', m', hpriced', hm', hle⟩ := ih hsub hne' rfl
        have hlast' := hpriced'.mem_stops last' List.mem_cons_self
        obtain ⟨m'', hm'', hle'⟩ := movePrice_trans hs hlast' hlast₀ hstop hm' hm
        exact ⟨stop, last' :: earlier', c' + m'' + g, 0, .next hpriced' hstop hm'' hg,
          movePrice_self t costs stop, by omega⟩

/-! ## Paying lower prices -/

/-- The same stops cost no more at lower prices. -/
theorem Priced.lower (hs : t.Serves d) (hreverse : costs'.reverse ≤ costs.reverse)
    (hlong : costs'.longCnot ≤ costs.longCnot) (hswap : costs'.swap ≤ costs.swap)
    (h : Priced d costs t pairs route c) : ∃ c' ≤ c, Priced d costs' t pairs route c' := by
  have hgate : ∀ {stop p g}, stop ∈ stops d.size →
      stopPrice? d d.hopTables costs p stop = some g →
      ∃ g' ≤ g, stopPrice? d d.hopTables costs' p stop = some g' := by
    intro stop p g hstop hg
    obtain ⟨op, hcalled, rfl⟩ := (stopPrice_iff hstop).1 hg
    have hle := CostModel.price_le hreverse hlong hswap op
    exact ⟨_, hle, (stopPrice_iff hstop).2 ⟨op, hcalled, rfl⟩⟩
  induction h with
  | first hstop hg =>
    obtain ⟨g', hle, hg'⟩ := hgate hstop hg
    exact ⟨g', hle, .first hstop hg'⟩
  | @next ps last earlier c p stop m g hpriced hstop hm hg ih =>
    have hlast := hpriced.mem_stops last List.mem_cons_self
    obtain ⟨c', hle, hpriced'⟩ := ih
    obtain ⟨g', hle', hg'⟩ := hgate hstop hg
    obtain ⟨k, hk, rfl⟩ := (movePrice_iff hs hlast hstop).1 hm
    obtain ⟨m', hm', hle''⟩ := movePrice_of_walk costs' hs hlast hstop hk.1
    have hmul : k * costs'.swap ≤ k * costs.swap := Nat.mul_le_mul_left k hswap
    exact ⟨c' + m' + g', by omega, .next hpriced' hstop hm' hg'⟩

/-! ## Renamed qubits -/

/-- The stop at which the renamed qubits are where the qubits were. -/
def Stop.rename (names : List Nat) (stop : Stop) : Stop :=
  ⟨inverse (stop.assignment.map (renamed names)), stop.assignment.map (renamed names)⟩

variable {names : List Nat}

theorem isArrangement_map_renamed {n : Nat} {A : List Nat} (hnames : IsArrangement n names)
    (hA : IsArrangement n A) : IsArrangement n (A.map (renamed names)) := by
  apply hA.map_of_inj
  · exact fun q hq => renamed_lt hnames hq
  · exact fun q hq r hr h => renamed_inj hnames hq hr h

theorem Stop.rename_mem_stops (hnames : IsArrangement d.size names) {stop : Stop}
    (hstop : stop ∈ stops d.size) : stop.rename names ∈ stops d.size := by
  have hA := isArrangement_map_renamed hnames (isArrangement_assignment hstop)
  exact mem_stops_iff.2 ⟨hA.inverse, (inverse_inverse hA).symm⟩

/-- A renamed qubit is where the qubit was. -/
theorem Stop.getElem?_rename (hnames : IsArrangement d.size names) {stop : Stop}
    (hstop : stop ∈ stops d.size) {q : Nat} (hq : q < d.size) :
    (stop.rename names).mapping[renamed names q]? = stop.mapping[q]? := by
  have hassignment := isArrangement_assignment hstop
  obtain ⟨hM, hassign⟩ := mem_stops_iff.1 hstop
  obtain ⟨u, hu⟩ := hM.exists_entry hq
  have hholds : stop.assignment[u]? = some q := by
    rw [hassign]
    exact (getElem?_inverse_iff hM).2 hu
  rw [hu, Stop.rename, getElem?_inverse_iff (isArrangement_map_renamed hnames hassignment),
    List.getElem?_map, hholds]
  rfl

theorem stopPrice_rename (hnames : IsArrangement d.size names) {stop : Stop}
    (hstop : stop ∈ stops d.size) {p : Pair} (hcontrol : p.control < d.size)
    (htarget : p.target < d.size) :
    stopPrice? d d.hopTables costs (p.rename names) (stop.rename names) =
      stopPrice? d d.hopTables costs p stop := by
  simp only [stopPrice?, Pair.rename, Stop.getElem?_rename hnames hstop hcontrol,
    Stop.getElem?_rename hnames hstop htarget]

/-- The renamed pairs can be met at the renamed stops, at no higher price: the same swaps lead from
one to the next. -/
theorem Priced.rename (hs : t.Serves d) (hnames : IsArrangement d.size names)
    (hpairs : ∀ p ∈ pairs, p.control < d.size ∧ p.target < d.size)
    (h : Priced d costs t pairs route c) :
    ∃ c' ≤ c, Priced d costs t (pairs.map (Pair.rename names))
      (route.map (Stop.rename names)) c' := by
  induction h with
  | first hstop hg =>
    obtain ⟨hcontrol, htarget⟩ := hpairs _ List.mem_cons_self
    rw [← stopPrice_rename hnames hstop hcontrol htarget] at hg
    exact ⟨_, le_rfl, .first (Stop.rename_mem_stops hnames hstop) hg⟩
  | @next ps last earlier c p stop m g hpriced hstop hm hg ih =>
    rw [List.forall_mem_cons] at hpairs
    have hlast := hpriced.mem_stops last List.mem_cons_self
    have hstop' := Stop.rename_mem_stops hnames hstop
    obtain ⟨c', hle, hpriced'⟩ := ih hpairs.2
    obtain ⟨k, hk, rfl⟩ := (movePrice_iff hs hlast hstop).1 hm
    obtain ⟨m', hm', hle'⟩ := movePrice_of_walk costs hs (Stop.rename_mem_stops hnames hlast)
      hstop' (Device.swapWalk_map (renamed names) hk.1)
    rw [← stopPrice_rename hnames hstop hpairs.1.1 hpairs.1.2] at hg
    exact ⟨c' + m' + g, by omega, .next hpriced' hstop' hm' hg⟩

end Sequences

/-! ## Solutions -/

section Solutions

variable {d : Device} {costs costs' : CostModel} {deps deps' : Dependencies} {names : List Nat}
  {s : Solution}

theorem validate_of_solve (h : solve d costs none deps = .ok s) :
    deps.validate d.size = .ok () := by
  obtain ⟨⟨⟩, hvalid, -⟩ := bind_eq_ok_iff.1 h
  exact hvalid

/-- Without dependencies there is nothing to pay. -/
theorem solve_nil (d : Device) (costs : CostModel) :
    solve d costs none [] = .ok ⟨identity d.size, 0, []⟩ :=
  rfl

/-- **What makes every sequence of stops cheaper makes the solution cheaper.** -/
theorem solve_le_of_priced (h : solve d costs none deps = .ok s) (hne : deps ≠ [])
    (hvalid' : deps'.validate d.size = .ok ()) (hne' : deps' ≠ [])
    (hcheaper : ∀ {t pairs route c}, t.Serves d → deps.pairs = .ok pairs →
      Priced d costs t pairs.reverse route c →
      ∃ pairs' route' c', deps'.pairs = .ok pairs' ∧
        Priced d costs' t pairs'.reverse route' c' ∧ c' ≤ c) :
    ∃ s', solve d costs' none deps' = .ok s' ∧ s'.cost ≤ s.cost := by
  obtain ⟨t, pairs, trail, htable, hs, hpairs, -, -, hpriced, hsolves, -⟩ :=
    trail_of_solve (fun _ h => (by cases h)) hne h
  obtain ⟨pairs', route', c', hpairs', hpriced', hle⟩ := hcheaper hs hpairs hpriced
  rcases solve_of_priced hs hvalid' hne' htable hpairs' hpriced' with
    ⟨s', hs', hle'⟩ | ⟨k, hlarge, hk, -⟩
  · exact ⟨s', hs', hle'.trans hle⟩
  · -- a cost that does not fit is no lower than one that does
    have hfits := hsolves.fits
    omega

theorem solve_sublist (h : solve d costs none deps = .ok s) (hsub : deps'.Sublist deps) :
    ∃ s', solve d costs none deps' = .ok s' ∧ s'.cost ≤ s.cost := by
  rcases eq_or_ne deps' [] with rfl | hne'
  · exact ⟨_, solve_nil d costs, Nat.zero_le _⟩
  have hne : deps ≠ [] := by
    rintro rfl
    exact hne' (List.sublist_nil.1 hsub)
  have hvalid := validate_of_solve h
  rw [Dependencies.validate_eq_ok_iff] at hvalid
  have hvalid' : deps'.validate d.size = .ok () :=
    Dependencies.validate_eq_ok_iff.2 fun dep hdep => hvalid dep (hsub.subset hdep)
  apply solve_le_of_priced h hne hvalid' hne'
  intro t pairs route c hs hpairs hpriced
  obtain ⟨pairs', hpairs', hsub'⟩ := Dependencies.pairs_sublist hsub hpairs
  obtain ⟨last, earlier, rfl⟩ := hpriced.exists_last
  have hne'' : pairs'.reverse ≠ [] :=
    mt List.reverse_eq_nil_iff.1 (Dependencies.pairs_ne_nil hpairs' hne')
  obtain ⟨last', earlier', c', m, hpriced', -, hle⟩ := hpriced.sublist hs hsub'.reverse hne''
  exact ⟨pairs', _, c', hpairs', hpriced', by omega⟩

theorem solve_lower (h : solve d costs none deps = .ok s)
    (hreverse : costs'.reverse ≤ costs.reverse) (hlong : costs'.longCnot ≤ costs.longCnot)
    (hswap : costs'.swap ≤ costs.swap) :
    ∃ s', solve d costs' none deps = .ok s' ∧ s'.cost ≤ s.cost := by
  rcases eq_or_ne deps [] with rfl | hne
  · exact ⟨_, solve_nil d costs', Nat.zero_le _⟩
  apply solve_le_of_priced h hne (validate_of_solve h) hne
  intro t pairs route c hs hpairs hpriced
  obtain ⟨c', hle, hpriced'⟩ := hpriced.lower hs hreverse hlong hswap
  exact ⟨pairs, route, c', hpairs, hpriced', hle⟩

theorem solve_rename_le (h : solve d costs none deps = .ok s)
    (hnames : IsArrangement d.size names) :
    ∃ s', solve d costs none (deps.rename names) = .ok s' ∧ s'.cost ≤ s.cost := by
  rcases eq_or_ne deps [] with rfl | hne
  · exact ⟨_, solve_nil d costs, Nat.zero_le _⟩
  have hvalid := validate_of_solve h
  apply solve_le_of_priced h hne (Dependencies.validate_rename hnames hvalid)
    (Dependencies.rename_ne_nil hne)
  intro t pairs route c hs hpairs hpriced
  have hbounds : ∀ p ∈ pairs.reverse, p.control < d.size ∧ p.target < d.size := by
    intro p hp
    obtain ⟨hcontrol, htarget, -⟩ :=
      Dependencies.bounds_of_validate hvalid hpairs p (List.mem_reverse.1 hp)
    exact ⟨hcontrol, htarget⟩
  obtain ⟨c', hle, hpriced'⟩ := hpriced.rename hs hnames hbounds
  rw [List.map_reverse] at hpriced'
  exact ⟨_, _, c', Dependencies.pairs_rename names hpairs, hpriced', hle⟩

/-- A renaming keeps the cost, because it can be undone. -/
theorem solve_rename (h : solve d costs none deps = .ok s) (hnames : IsArrangement d.size names) :
    ∃ s', solve d costs none (deps.rename names) = .ok s' ∧ s'.cost = s.cost := by
  obtain ⟨s', hs', hle⟩ := solve_rename_le h hnames
  obtain ⟨s'', hs'', hle'⟩ := solve_rename_le hs' hnames.inverse
  rw [Dependencies.rename_inverse hnames (validate_of_solve h), h] at hs''
  obtain rfl := Except.ok.inj hs''
  exact ⟨s', hs', Nat.le_antisymm hle hle'⟩

end Solutions

/-- **Laws of the least cost.** If the dynamic programme solves some dependencies, then it solves
any part of them, and the same at prices that are each no higher, at no higher cost; and it solves
them with the logical qubits renamed by any permutation at the same cost. -/
theorem solve_cost_laws {d : Device} {costs : CostModel} {deps : Dependencies} {s : Solution}
    (h : solve d costs none deps = .ok s) :
    (∀ deps', deps'.Sublist deps →
      ∃ s', solve d costs none deps' = .ok s' ∧ s'.cost ≤ s.cost) ∧
    (∀ costs' : CostModel, costs'.swap ≤ costs.swap → costs'.reverse ≤ costs.reverse →
      costs'.longCnot ≤ costs.longCnot →
      ∃ s', solve d costs' none deps = .ok s' ∧ s'.cost ≤ s.cost) ∧
    (∀ names, IsArrangement d.size names →
      ∃ s', solve d costs none (deps.rename names) = .ok s' ∧ s'.cost = s.cost) := by
  refine ⟨?_, ?_, ?_⟩
  · intro deps' hsub
    exact solve_sublist h hsub
  · intro costs' hswap hreverse hlong
    exact solve_lower h hreverse hlong hswap
  · intro names hnames
    exact solve_rename h hnames

/-- Five dependencies on a chain of three qubits cost a bridge and a swap. Without the second of
them, or with cheaper swaps, the cost is no higher; with the qubits renamed in turn it is the
same. -/
theorem solve_cost_laws_chain :
    let d := Device.ofNodup 3 [(0, 1), (1, 2)] (by decide) (by decide)
    let deps : Dependencies := [⟨0, [⟨0, 1⟩]⟩, ⟨1, [⟨1, 2⟩]⟩, ⟨2, [⟨2, 0⟩]⟩, ⟨3, [⟨2, 1⟩]⟩,
      ⟨4, [⟨1, 0⟩]⟩]
    let fewer : Dependencies := [⟨0, [⟨0, 1⟩]⟩, ⟨2, [⟨2, 0⟩]⟩, ⟨3, [⟨2, 1⟩]⟩, ⟨4, [⟨1, 0⟩]⟩]
    let turned : Dependencies := [⟨0, [⟨1, 2⟩]⟩, ⟨1, [⟨2, 0⟩]⟩, ⟨2, [⟨0, 1⟩]⟩, ⟨3, [⟨0, 2⟩]⟩,
      ⟨4, [⟨2, 1⟩]⟩]
    (∃ s, solve d .standard none deps = .ok s ∧ s.cost = 17) ∧ fewer.Sublist deps ∧
      (∃ s, solve d .standard none fewer = .ok s ∧ s.cost ≤ 17) ∧
      (∃ s, solve d ⟨1, 4, 10⟩ none deps = .ok s ∧ s.cost ≤ 17) ∧
      IsArrangement d.size [1, 2, 0] ∧ deps.rename [1, 2, 0] = turned ∧
      ∃ s, solve d .standard none turned = .ok s ∧ s.cost = 17 := by
  intro d deps fewer turned
  have hsolve : solve d .standard none deps = .ok ⟨[1, 2, 0], 17,
      [⟨0, [.cnot 0 1]⟩, ⟨1, [.longCnot 1 2 1]⟩, ⟨2, [.cnot 2 0]⟩, ⟨3, [.swap 0 1, .cnot 2 1]⟩,
        ⟨4, [.cnot 1 0]⟩]⟩ := by
    decide +kernel
  have hsub : fewer.Sublist deps := by decide
  have hnames : IsArrangement d.size [1, 2, 0] := isPermutation_iff.1 (by decide)
  obtain ⟨hpart, hlower, hrename⟩ := solve_cost_laws hsolve
  exact ⟨⟨_, hsolve, rfl⟩, hsub, hpart fewer hsub,
    hlower ⟨1, 4, 10⟩ (by decide) (by decide) (by decide), hnames, rfl, hrename [1, 2, 0] hnames⟩

end Exact

end QubitAllocation
