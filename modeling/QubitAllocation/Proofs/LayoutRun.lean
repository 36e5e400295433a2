import QubitAllocation.Proofs.Enumeration
import QubitAllocation.Proofs.Layout
import QubitAllocation.Proofs.Replay.Judgement

/-!
# Layouts stay inverse under any run of exchanges

A layout changes by exchanges of two logical qubits and by exchanges of what two physical qubits
hold (`Layout.Move`). Both come down to one change (`Layout.Consistent.move_eq`): two logical qubits
trade places in the mapping, and the physical qubits that held them trade places in the assignment,
also if the two are the same. So a move keeps a layout consistent, takes nothing else along, and is
undone by itself (`Layout.Consistent.move_move`), and a run of moves keeps a layout consistent
(`Layout.Consistent.run`).

The two tests for mappings, the one of layouts and the one of swap tables, accept the same lists, and
every layout starts from one of these (`Layout.layouts_stay_inverse`).
-/

set_option autoImplicit false

namespace QubitAllocation

/-- An exchange changes the two entries if they differ, and no others. -/
theorem Arrangement.getElem?_exchange_ne_iff {M : List Nat} {a b u v : Nat} (ha : M[a]? = some u)
    (hb : M[b]? = some v) (c : Nat) :
    (exchange M a b)[c]? ≠ M[c]? ↔ u ≠ v ∧ (c = a ∨ c = b) := by
  have hal := (List.getElem?_eq_some_iff.1 ha).1
  have hbl := (List.getElem?_eq_some_iff.1 hb).1
  by_cases hca : c = a
  · subst hca
    rw [getElem?_exchange hal hbl, Equiv.swap_apply_left, ha, hb]
    simp [eq_comm]
  · by_cases hcb : c = b
    · subst hcb
      rw [getElem?_exchange hal hbl, Equiv.swap_apply_right, ha, hb]
      simp
    · rw [getElem?_exchange_of_ne hal hbl hca hcb]
      simp [hca, hcb]

namespace Layout

open Arrangement

/-- An exchange of two qubits of a layout. -/
inductive Move where
  /-- Two logical qubits exchange their places. -/
  | logical (a b : Nat)
  /-- Two physical qubits exchange what they hold. -/
  | physical (u v : Nat)
  deriving DecidableEq

/-- Both qubits are among the first `n`. -/
def Move.InRange (n : Nat) : Move → Prop
  | .logical a b => a < n ∧ b < n
  | .physical u v => u < n ∧ v < n

instance (n : Nat) (m : Move) : Decidable (m.InRange n) :=
  match m with
  | .logical _ _ => inferInstanceAs (Decidable (_ ∧ _))
  | .physical _ _ => inferInstanceAs (Decidable (_ ∧ _))

/-- Carry out a move. -/
def move (l : Layout) : Move → Option Layout
  | .logical a b => l.exchangeLogical a b
  | .physical u v => l.exchangePhysical u v

/-- Carry out moves one after the other. -/
def run (l : Layout) (moves : List Move) : Option Layout := moves.foldlM move l

/-- The move exchanges the logical qubits `a` and `b`, which are on `u` and `v`. -/
def Move.Trades (l : Layout) (a b u v : Nat) (m : Move) : Prop :=
  (m = .logical a b ∨ m = .physical u v) ∧ l.mapping[a]? = some u ∧ l.mapping[b]? = some v

/-- The layout after the logical qubits `a` and `b` have been exchanged on `u` and `v`. -/
def traded (l : Layout) (a b u v : Nat) : Layout :=
  ⟨exchange l.mapping a b, exchange l.assignment u v⟩

/-- Afterwards the two logical qubits are on each other's places. -/
theorem Move.Trades.places {l : Layout} {m : Move} {a b u v : Nat} (hm : m.Trades l a b u v) :
    (l.traded a b u v).mapping[a]? = some v ∧ (l.traded a b u v).mapping[b]? = some u := by
  obtain ⟨-, ha, hb⟩ := hm
  have hal := (List.getElem?_eq_some_iff.1 ha).1
  have hbl := (List.getElem?_eq_some_iff.1 hb).1
  rw [Layout.traded, getElem?_exchange hal hbl, getElem?_exchange hal hbl, Equiv.swap_apply_left,
    Equiv.swap_apply_right]
  exact ⟨hb, ha⟩

namespace Consistent

variable {n : Nat} {l : Layout} {m : Move} {a b u v : Nat}

/-! ## One move -/

/-- Qubits in range have partners on the other side. -/
theorem exists_trades (h : l.Consistent n) (hm : m.InRange n) : ∃ a b u v, m.Trades l a b u v := by
  cases m with
  | logical a b =>
    obtain ⟨u, hu⟩ := h.mapping.exists_entry hm.1
    obtain ⟨v, hv⟩ := h.mapping.exists_entry hm.2
    exact ⟨a, b, u, v, Or.inl rfl, hu, hv⟩
  | physical u v =>
    obtain ⟨a, ha⟩ := h.mapping.exists_place hm.1
    obtain ⟨b, hb⟩ := h.mapping.exists_place hm.2
    exact ⟨a, b, u, v, Or.inr rfl, ha, hb⟩

/-- **What a move does**, whichever side its qubits are named on. -/
theorem move_eq (h : l.Consistent n) (hm : m.Trades l a b u v) :
    l.move m = some (l.traded a b u v) := by
  obtain ⟨hm, ha, hb⟩ := hm
  have hlogical : l.exchangeLogical a b = some (l.traded a b u v) := by
    rw [Layout.exchangeLogical, physical?, physical?, ha, hb]
    rfl
  rcases hm with rfl | rfl
  · exact hlogical
  · rw [move, h.exchangePhysical_eq ha hb, hlogical]

theorem traded (h : l.Consistent n) (hm : m.Trades l a b u v) :
    (l.traded a b u v).Consistent n where
  mapping := h.mapping.exchange a b
  assignment := by
    rw [Layout.traded, inverse_exchange h.mapping hm.2.1 hm.2.2, h.assignment]

/-- **A move undoes itself.** Named on the logical side it finds the two places exchanged, and named
on the physical side the two qubits. -/
theorem move_move (h : l.Consistent n) (hm : m.Trades l a b u v) :
    (l.traded a b u v).move m = some l := by
  obtain ⟨ha', hb'⟩ := hm.places
  have hal := h.mapping.length_eq.symm ▸ h.mapping.place_lt hm.2.1
  have hbl := h.mapping.length_eq.symm ▸ h.mapping.place_lt hm.2.2
  have hul := h.length_assignment.symm ▸ h.mapping.entry_lt hm.2.1
  have hvl := h.length_assignment.symm ▸ h.mapping.entry_lt hm.2.2
  have hback : (l.traded a b u v).traded a b v u = l ∧ (l.traded a b u v).traded b a u v = l := by
    simp only [Layout.traded]
    constructor
    · rw [exchange_exchange hal hbl, exchange_comm hul hvl, exchange_exchange hvl hul]
    · rw [exchange_comm hal hbl, exchange_exchange hbl hal, exchange_exchange hul hvl]
  rcases hm.1 with rfl | rfl
  · rw [(h.traded hm).move_eq ⟨Or.inl rfl, ha', hb'⟩, hback.1]
  · rw [(h.traded hm).move_eq ⟨Or.inr rfl, hb', ha'⟩, hback.2]

/-- **What an exchange of physical qubits changes**: the entries of the qubits that they hold, and on
the other side their own. -/
theorem changes_physical (h : l.Consistent n) (hu : u < n) (hv : v < n) :
    ∃ a b l', l.logical? u = some a ∧ l.logical? v = some b ∧ l.exchangePhysical u v = some l' ∧
      l'.physical? a = some v ∧ l'.physical? b = some u ∧
      (∀ c, l'.physical? c ≠ l.physical? c ↔ u ≠ v ∧ (c = a ∨ c = b)) ∧
      ∀ w, l'.logical? w ≠ l.logical? w ↔ u ≠ v ∧ (w = u ∨ w = v) := by
  obtain ⟨a, hua, ha⟩ := h.exists_logical hu
  obtain ⟨b, hvb, hb⟩ := h.exists_logical hv
  have hm : Move.Trades l a b u v (.physical u v) := ⟨Or.inr rfl, ha, hb⟩
  -- different physical qubits hold different logical ones
  have hne : a ≠ b ↔ u ≠ v := by
    refine not_congr ⟨?_, ?_⟩
    · rintro rfl
      exact Option.some.inj (ha.symm.trans hb)
    · rintro rfl
      exact h.mapping.place_unique ha hb
  refine ⟨a, b, l.traded a b u v, hua, hvb, h.move_eq hm, hm.places.1, hm.places.2, ?_, fun w => ?_⟩
  · exact getElem?_exchange_ne_iff ha hb
  · rw [← hne]
    exact getElem?_exchange_ne_iff hua hvb w

/-! ## Runs -/

/-- **A run of moves** in range is carried out and keeps the layout consistent. -/
theorem run {moves : List Move} (h : l.Consistent n) (hmoves : ∀ m ∈ moves, m.InRange n) :
    ∃ l', l.run moves = some l' ∧ l'.Consistent n := by
  induction moves generalizing l with
  | nil => exact ⟨l, rfl, h⟩
  | cons m moves ih =>
    rw [List.forall_mem_cons] at hmoves
    obtain ⟨a, b, u, v, hm⟩ := h.exists_trades hmoves.1
    obtain ⟨l', hl', h'⟩ := ih (h.traded hm) hmoves.2
    refine ⟨l', ?_, h'⟩
    rw [Layout.run, List.foldlM_cons, h.move_eq hm]
    exact hl'

end Consistent

theorem consistent_trivial (n : Nat) : (trivial n).Consistent n where
  mapping := isArrangement_identity n
  assignment := by
    -- the identity has every number at its own place
    have hid := isArrangement_identity n
    apply List.ext_getElem?
    intro v
    apply Option.ext
    intro i
    rw [trivial, getElem?_inverse_iff hid, identity, List.getElem?_eq_some_iff,
      List.getElem?_eq_some_iff]
    simp only [List.length_range, List.getElem_range]
    constructor
    · rintro ⟨hv, rfl⟩
      exact ⟨hv, rfl⟩
    · rintro ⟨hi, rfl⟩
      exact ⟨hi, rfl⟩

theorem consistent_of_ofMapping {M : List Nat} {l : Layout} (h : ofMapping M = .ok l) :
    l.Consistent M.length := by
  obtain ⟨hM, rfl⟩ := ofMapping_eq_ok_iff.1 h
  exact ⟨hM, rfl⟩

/-- **Layouts stay inverse.** The test for mappings of `n` qubits accepts exactly the permutations of
`0, …, n - 1`, and so does every swap table for `n` qubits. The inverse of such a mapping can be
computed, undoes it, and has the mapping as its inverse. From the trivial layout and from the layout
of any mapping, every run of exchanges of qubits in range is carried out; then the mapping is still a
permutation and the assignment its inverse, exchanging what two physical qubits hold changes exactly
the entries of the qubits that they hold and their own, and any exchange is undone by repeating
it. -/
theorem layouts_stay_inverse (n : Nat) :
    (∀ values : List Nat, (checkMapping values n = .ok () ↔ values.Perm (List.range n)) ∧
      ∀ t : SwapTable, t.size = n →
        (values.Perm (List.range n) ↔ ∃ id, t.idOf values = .ok id)) ∧
    (∀ M : List Nat, M.Perm (List.range n) → inverse? M = some (inverse M) ∧
      (∀ i v : Nat, (inverse M)[v]? = some i ↔ M[i]? = some v) ∧ inverse (inverse M) = M) ∧
    ∀ start : Layout, start = trivial n ∨ (∃ M, M.length = n ∧ ofMapping M = .ok start) →
      ∀ moves : List Move, (∀ m ∈ moves, m.InRange n) →
      ∃ l, start.run moves = some l ∧ l.mapping.Perm (List.range n) ∧
        l.assignment = inverse l.mapping ∧
        (∀ u v, u < n → v < n → ∃ a b l', l.logical? u = some a ∧ l.logical? v = some b ∧
          l.exchangePhysical u v = some l' ∧ l'.physical? a = some v ∧ l'.physical? b = some u ∧
          (∀ c, l'.physical? c ≠ l.physical? c ↔ u ≠ v ∧ (c = a ∨ c = b)) ∧
          ∀ w, l'.logical? w ≠ l.logical? w ↔ u ≠ v ∧ (w = u ∨ w = v)) ∧
        ∀ m : Move, m.InRange n → ∃ l', l.move m = some l' ∧ l'.move m = some l := by
  refine ⟨fun values => ⟨checkMapping_eq_ok_iff, ?_⟩, fun M hM => ⟨?_, ?_, ?_⟩, ?_⟩
  · rintro t rfl
    simp only [SwapTable.idOf_eq_ok_iff, exists_and_left, exists_eq', and_true]
    exact Iff.rfl
  · have hall : M.all (fun v => v < M.length) = true := by
      rw [List.all_eq_true, IsArrangement.length_eq hM]
      intro v hv
      exact decide_eq_true ((IsArrangement.mem_iff hM).1 hv)
    rw [inverse?, if_pos hall]
  · exact fun i v => getElem?_inverse_iff hM
  · exact inverse_inverse hM
  · intro start hstart moves hmoves
    have hconsistent : start.Consistent n := by
      rcases hstart with rfl | ⟨M, rfl, hM⟩
      · exact consistent_trivial n
      · exact consistent_of_ofMapping hM
    obtain ⟨l, hl, h⟩ := hconsistent.run hmoves
    refine ⟨l, hl, h.mapping, h.assignment, fun u v => h.changes_physical, fun m hm => ?_⟩
    obtain ⟨a, b, u, v, htrades⟩ := h.exists_trades hm
    exact ⟨l.traded a b u v, h.move_eq htrades, h.move_move htrades⟩

/-- Four qubits, exchanged on either side and with themselves. In the end the physical qubits 0 and 1
hold the logical ones 2 and 3, and exchanging what they hold changes the entries of these only. -/
theorem layouts_stay_inverse_four :
    let M := [2, 0, 3, 1]
    let moves : List Move := [.logical 0 2, .physical 0 2, .physical 3 3, .logical 1 1]
    let d := Device.ofNodup 4 [(0, 1), (1, 2), (2, 3)] (by decide) (by decide)
    (∃ t id, SwapTable.build d = .ok t ∧ t.size = 4 ∧ t.idOf M = .ok id) ∧
    checkMapping M 4 = .ok () ∧ inverse? M = some [1, 3, 0, 2] ∧ inverse [1, 3, 0, 2] = M ∧
    (∀ m ∈ moves, m.InRange 4) ∧ ∃ start l l', ofMapping M = .ok start ∧
      start.run moves = some l ∧ l = ⟨[3, 2, 0, 1], [2, 3, 1, 0]⟩ ∧
      l.mapping.Perm (List.range 4) ∧ l.assignment = inverse l.mapping ∧
      l.exchangePhysical 0 1 = some l' ∧ l'.physical? 2 = some 1 ∧ l'.physical? 3 = some 0 ∧
      (∀ c, l'.physical? c ≠ l.physical? c ↔ c = 2 ∨ c = 3) ∧
      ∃ back, l.move (.logical 1 3) = some back ∧ back.move (.logical 1 3) = some l := by
  intro M moves d
  have hM : M.Perm (List.range 4) := isPermutation_iff.1 (by decide)
  have hmoves : ∀ m ∈ moves, m.InRange 4 := by decide
  have hstart : ofMapping M = .ok ⟨[2, 0, 3, 1], [1, 3, 0, 2]⟩ := by decide +kernel
  obtain ⟨t, ht⟩ : ∃ t, SwapTable.build d = .ok t := SwapTable.exists_build_iff.2 (by decide)
  have hsize : t.size = 4 := (SwapTable.SetUpFor.built ht).serves.size_eq
  obtain ⟨htests, hinverse, hruns⟩ := layouts_stay_inverse 4
  obtain ⟨id, hid⟩ := ((htests M).2 t hsize).1 hM
  obtain ⟨hinverse?, -, htwice⟩ := hinverse M hM
  obtain ⟨l, hl, hperm, hassignment, hchanges, hundo⟩ :=
    hruns _ (Or.inr ⟨M, rfl, hstart⟩) moves hmoves
  have hrun : run ⟨[2, 0, 3, 1], [1, 3, 0, 2]⟩ moves = some ⟨[3, 2, 0, 1], [2, 3, 1, 0]⟩ := by decide
  obtain rfl := Option.some.inj (hl.symm.trans hrun)
  obtain ⟨a, b, l', ha, hb, hl', ha', hb', hiff, -⟩ := hchanges 0 1 (by decide) (by decide)
  cases ha
  cases hb
  refine ⟨⟨t, id, ht, hsize, hid⟩, (htests M).1.2 hM, hinverse?, htwice, hmoves, _, _, l', hstart,
    hrun, rfl, hperm, hassignment, hl', ha', hb', fun c => ?_, hundo _ (by decide)⟩
  rw [hiff]
  simp

end Layout

end QubitAllocation
