import QubitAllocation.Proofs.Outcome
import QubitAllocation.Proofs.TokenQuery

/-!
# Swap tables have a cell for every arrangement

The search that fills a swap table ends without an answer at an arrangement without a cell. A device
with qubits has a cell for each (`SwapTable.build_of_size`).

A table that any number of set-ups lead to is empty, or it is the table of a device and has a cell
for every arrangement (`SwapTable.Reachable.cases`). Hence a look-up beyond the end of a table
happens where there are no qubits and nowhere else: when a table is set up for a device without
qubits, and when the empty table is asked about the empty arrangement
(`SwapTable.outOfRange_iff_no_qubits`). The empty arrangement is an arrangement of no qubits, but it
has no cell.
-/

set_option autoImplicit false

namespace QubitAllocation

/-! ## Tables that set-ups lead to -/

namespace SwapTable

open Arrangement Search

/-- The tables that any number of set-ups for any devices lead to from the empty one. -/
inductive Reachable : SwapTable → Prop
  | empty : Reachable empty
  | rebuild {t : SwapTable} (d : Device) : Reachable t → Reachable (t.rebuild d).1

theorem Reachable.cases {t : SwapTable} (h : Reachable t) : t = .empty ∨ ∃ d, build d = .ok t := by
  induction h with
  | empty => exact Or.inl rfl
  | @rebuild t d _ ih =>
    rcases t.rebuild_cases d with ⟨t', hbuild, heq⟩ | ⟨e, -, heq⟩
    · rw [heq]
      exact Or.inr ⟨d, hbuild⟩
    · rw [heq]
      show (if e = .outOfRange then SwapTable.empty else t) = _ ∨ _
      split_ifs
      · exact Or.inl rfl
      · exact ih

theorem build_of_size {d : Device} (hpos : 0 < d.size) (hmax : d.size ≤ maxSize) :
    ∃ t, build d = .ok t ∧ t.size = d.size ∧
      depths? (orders d.size) rank (successors d.couplings) (identity d.size) = some t.depths := by
  obtain ⟨found, hrun, hbuild, -⟩ := exists_build hpos hmax
  refine ⟨_, hbuild, rfl, ?_⟩
  rw [depths?, hrun]
  rfl

theorem build_eq_outOfRange_iff {d : Device} : build d = .error .outOfRange ↔ d.size = 0 := by
  refine ⟨fun h => ?_, build_of_size_eq_zero⟩
  by_contra hzero
  rcases Nat.lt_or_ge maxSize d.size with hlarge | hmax
  · rw [build, if_pos hlarge] at h
    cases h
  · obtain ⟨t, hbuild⟩ := exists_build_iff.2 ⟨Nat.pos_of_ne_zero hzero, hmax⟩
    rw [hbuild] at h
    cases h

theorem rebuild_eq_outOfRange_iff {t : SwapTable} {d : Device} :
    (t.rebuild d).2 = .error .outOfRange ↔ d.size = 0 := by
  rw [← build_eq_outOfRange_iff]
  rcases t.rebuild_cases d with ⟨t', hbuild, heq⟩ | ⟨e, hbuild, heq⟩
  · simp [hbuild, heq]
  · simp [hbuild, heq]

/-! ## Queries -/

theorem check_ne_outOfRange (t : SwapTable) (values : List Nat) :
    t.check values ≠ .error .outOfRange := by
  unfold check
  split_ifs
  · intro h
    cases h
  · intro h
    cases h
  · intro h
    cases h

theorem idOf_ne_outOfRange (t : SwapTable) (values : List Nat) :
    t.idOf values ≠ .error .outOfRange := by
  intro h
  rcases Outcome.bind_eq_error_iff.1 h with hcheck | ⟨_, -, hrank⟩
  · exact t.check_ne_outOfRange values hcheck
  · cases hrank

section Served

variable {t : SwapTable} {d : Device}

/-- A table that serves a device has a cell for every arrangement. -/
theorem Serves.exists_entry (h : t.Serves d) {M : List Nat} (hM : IsArrangement d.size M) :
    ∃ cell, t.entry? M = some cell := by
  by_cases hwalk : ∃ k, Walk d.swapNext (identity d.size) k M
  · obtain ⟨k, hk⟩ := hwalk
    obtain ⟨j, -, hj⟩ := hk.exists_isDepth
    exact ⟨some j, (h.entry_iff hM j).2 hj⟩
  · exact ⟨none, (h.entry_none_iff hM).2 fun k hk => hwalk ⟨k, hk⟩⟩

/-- Both queries answer, or both are refused for the same cause. -/
theorem Serves.query_cases (h : t.Serves d) (S T : List Nat) :
    (∃ swaps, t.find S T = .ok swaps ∧ t.swapCount S T = .ok swaps.length) ∨
    ∃ e, e ≠ .outOfRange ∧ t.find S T = .error e ∧ t.swapCount S T = .error e := by
  have hrefusal : ∀ values, refusal d.size values ≠ .outOfRange := by
    intro values
    unfold refusal
    split_ifs
    · exact DeviceError.noConfusion
    · exact DeviceError.noConfusion
  by_cases hS : IsArrangement d.size S
  · by_cases hT : IsArrangement d.size T
    · by_cases hlead : ∃ swaps, d.SwapsLead swaps S T
      · obtain ⟨other, hother⟩ := hlead
        obtain ⟨swaps, hfind, -, -, hcount⟩ := h.answered hS hT hother
        exact Or.inl ⟨swaps, hfind, hcount⟩
      · have hnone : ∀ k, ¬ Walk d.swapNext S k T := by
          intro k hk
          obtain ⟨swaps, -, hswaps⟩ := (Device.swapWalk_iff hS.length_eq).1 hk
          exact hlead ⟨swaps, hswaps⟩
        exact Or.inr ⟨_, DeviceError.noConfusion, h.unreachable hS hT hnone⟩
    · exact Or.inr ⟨_, hrefusal T, h.refused.2 hS hT⟩
  · exact Or.inr ⟨_, hrefusal S, h.refused.1 hS⟩

end Served

/-- The empty table refuses every list but the empty one, and for that it has no cell. -/
theorem query_empty (S T : List Nat) :
    if S = [] ∧ T = [] then
      empty.find S T = .error .outOfRange ∧ empty.swapCount S T = .error .outOfRange
    else ∃ e, e ≠ .outOfRange ∧ empty.find S T = .error e ∧ empty.swapCount S T = .error e := by
  cases S with
  | cons s S => exact ⟨_, DeviceError.noConfusion, rfl, rfl⟩
  | nil =>
    cases T with
    | cons x T => exact ⟨_, DeviceError.noConfusion, rfl, rfl⟩
    | nil => exact ⟨rfl, rfl⟩

/-- **Only where there are no qubits is anything looked up beyond the end of a table**: when a table
is set up for a device without qubits, and when the empty table is asked about the empty
arrangement. The search for any other device stays inside the table, which then has a cell for every
arrangement, and swaps that are found are as many as are counted. -/
theorem outOfRange_iff_no_qubits (d : Device) {t : SwapTable} (ht : t.Reachable) (S T : List Nat) :
    ((build d = .error .outOfRange ↔ d.size = 0) ∧
      ((t.rebuild d).2 = .error .outOfRange ↔ d.size = 0) ∧
      (maxSize < d.size → build d = .error (.tooLarge d.size maxSize)) ∧
      (0 < d.size → d.size ≤ maxSize → ∃ t, build d = .ok t ∧ t.size = d.size ∧
        depths? (orders d.size) rank (successors d.couplings) (identity d.size) = some t.depths)) ∧
    (0 < t.size → IsArrangement t.size S → ∃ cell, t.entry? S = some cell) ∧
    (t.find S T = .error .outOfRange ↔ t.size = 0 ∧ S = [] ∧ T = []) ∧
    (t.swapCount S T = .error .outOfRange ↔ t.size = 0 ∧ S = [] ∧ T = []) ∧
    (∀ swaps, t.find S T = .ok swaps → t.swapCount S T = .ok swaps.length) ∧
    t.idOf S ≠ .error .outOfRange := by
  refine ⟨⟨build_eq_outOfRange_iff, rebuild_eq_outOfRange_iff, fun h => if_pos h, build_of_size⟩,
    ?_⟩
  have hid := t.idOf_ne_outOfRange S
  rcases ht.cases with rfl | ⟨other, hbuild⟩
  · -- the table was never set up, or a set-up left it empty
    refine ⟨fun hpos => absurd hpos (Nat.lt_irrefl 0), ?_⟩
    have hquery := query_empty S T
    split_ifs at hquery with hnil
    · obtain ⟨hfind, hcount⟩ := hquery
      refine ⟨⟨fun _ => ⟨rfl, hnil⟩, fun _ => hfind⟩, ⟨fun _ => ⟨rfl, hnil⟩, fun _ => hcount⟩, ?_,
        hid⟩
      intro swaps hswaps
      rw [hfind] at hswaps
      cases hswaps
    · obtain ⟨e, he, hfind, hcount⟩ := hquery
      simp [hfind, hcount, he, hnil, hid]
  · have hserves : t.Serves other := serves_of_build hbuild rfl fun _ _ => Iff.rfl
    have hpos : 0 < t.size := by
      rw [hserves.size_eq]
      exact (exists_build_iff.1 ⟨t, hbuild⟩).1
    refine ⟨fun _ hS => hserves.exists_entry (hserves.size_eq ▸ hS), ?_⟩
    rcases hserves.query_cases S T with ⟨swaps, hfind, hcount⟩ | ⟨e, he, hfind, hcount⟩
    · simp [hfind, hcount, hpos.ne', hid]
    · simp [hfind, hcount, he, hpos.ne', hid]

/-- A table that was set up for two qubits, then for three, and was then refused ten. All its
queries stay inside the table, also about lists that are no arrangements. -/
theorem outOfRange_iff_no_qubits_path :
    let pair := Device.ofNodup 2 [(0, 1)] (by decide) (by decide)
    let path := Device.ofNodup 3 [(0, 1), (2, 1)] (by decide) (by decide)
    let wide := Device.ofNodup 10 [] (by decide) (by decide)
    let t := (((empty.rebuild pair).1.rebuild path).1.rebuild wide).1
    Reachable t ∧ t.size = 3 ∧
      ∀ S T, t.find S T ≠ .error .outOfRange ∧ t.swapCount S T ≠ .error .outOfRange := by
  intro pair path wide t
  have ht : Reachable t := .rebuild wide (.rebuild path (.rebuild pair .empty))
  have hsize : t.size = 3 := by decide +kernel
  refine ⟨ht, hsize, fun S T => ?_⟩
  obtain ⟨-, -, hfind, hcount, -⟩ := outOfRange_iff_no_qubits wide ht S T
  rw [Ne, Ne, hfind, hcount, hsize]
  exact ⟨fun h => absurd h.1 (by decide), fun h => absurd h.1 (by decide)⟩

/-- Without qubits there is no cell to start the search from, and none for the empty arrangement. -/
theorem no_cell_without_qubits :
    let bare := Device.ofNodup 0 [] (by decide) (by decide)
    build bare = .error .outOfRange ∧ empty.find [] [] = .error .outOfRange ∧
      (empty.rebuild bare).1.swapCount [] [] = .error .outOfRange := by
  exact ⟨rfl, rfl, rfl⟩

end SwapTable

end QubitAllocation
