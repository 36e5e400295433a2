import QubitAllocation.Proofs.TokenSwap

/-!
# Swap queries are exact

`SwapTable.SetUpFor d t` says that the last set-up of the table `t` that succeeded was for the device
`d`: whatever the table held before is gone, and a set-up that is refused leaves it as it is.

Such a table answers with swaps between two arrangements exactly if swaps along the couplings of the
device lead from the one to the other. The swaps that it answers with do lead there, no list of
swaps that does is shorter, and it counts as many (`SwapTable.find_exact`). The swap walks that the
table was searched by are, step by step, lists of swaps (`Device.swapWalk_iff`).
-/

set_option autoImplicit false

namespace QubitAllocation

open Arrangement Search

/-! ## Lists of swaps -/

/-- The swaps run along couplings and turn the first list into the second, one after the other. -/
def Device.SwapsLead (d : Device) (swaps : List (Nat × Nat)) (S T : List Nat) : Prop :=
  (∀ m ∈ swaps, d.Coupled m.1 m.2) ∧ exchangeAll S swaps = T

/-- The swap walks of `k` steps are the lists of `k` swaps. -/
theorem Device.swapWalk_iff {d : Device} {k : Nat} {S T : List Nat} (hS : S.length = d.size) :
    Walk d.swapNext S k T ↔ ∃ swaps : List (Nat × Nat), swaps.length = k ∧
      d.SwapsLead swaps S T := by
  induction k generalizing S with
  | zero =>
    rw [walk_zero_iff]
    constructor
    · rintro rfl
      exact ⟨[], rfl, List.forall_mem_nil _, rfl⟩
    · rintro ⟨swaps, hlen, -, hend⟩
      rw [List.length_eq_zero_iff.1 hlen] at hend
      exact hend
  | succ k ih =>
    rw [walk_succ_iff_head]
    constructor
    · rintro ⟨N, hN, hwalk⟩
      obtain ⟨u, v, huv, rfl⟩ := (mem_swapNext_iff hS).1 hN
      obtain ⟨swaps, hlen, hall, hend⟩ := (ih (by rw [length_exchange, hS])).1 hwalk
      exact ⟨(u, v) :: swaps, by rw [List.length_cons, hlen], List.forall_mem_cons.2 ⟨huv, hall⟩,
        hend⟩
    · rintro ⟨swaps, hlen, hall, hend⟩
      obtain ⟨m, rest, rfl⟩ := List.exists_cons_of_length_eq_add_one hlen
      rw [List.forall_mem_cons] at hall
      refine ⟨exchange S m.1 m.2, (mem_swapNext_iff hS).2 ⟨m.1, m.2, hall.1, rfl⟩, ?_⟩
      exact (ih (by rw [length_exchange, hS])).2 ⟨rest, Nat.succ.inj hlen, hall.2, hend⟩

namespace SwapTable

/-! ## The last set-up -/

/-- The last set-up of the table that succeeded was for the device. A look-up beyond the table's end,
which a device without qubits leads to, is no refusal. -/
inductive SetUpFor (d : Device) : SwapTable → Prop
  | built {t : SwapTable} : build d = .ok t → SetUpFor d t
  | rebuilt {before t : SwapTable} : before.rebuild d = (t, .ok ()) → SetUpFor d t
  | refused {t t' : SwapTable} {other : Device} {e : DeviceError} : SetUpFor d t →
      t.rebuild other = (t', .error e) → e ≠ .outOfRange → SetUpFor d t'

theorem rebuild_cases (t : SwapTable) (d : Device) :
    (∃ t', build d = .ok t' ∧ t.rebuild d = (t', .ok ())) ∨
    ∃ e, build d = .error e ∧
      t.rebuild d = (if e = .outOfRange then empty else t, .error e) := by
  unfold rebuild
  cases hbuild : build d with
  | ok t' => exact Or.inl ⟨t', rfl, rfl⟩
  | error e =>
    refine Or.inr ⟨e, rfl, ?_⟩
    cases e <;> rfl

/-- Neither what the table held before nor what was refused afterwards matters. -/
theorem SetUpFor.build_eq {t : SwapTable} {d : Device} (h : SetUpFor d t) : build d = .ok t := by
  induction h with
  | built hbuild => exact hbuild
  | @rebuilt before t hrebuild =>
    rcases before.rebuild_cases d with ⟨t', hbuild, heq⟩ | ⟨e, -, heq⟩
    · rw [hrebuild, Prod.mk.injEq] at heq
      rw [heq.1, hbuild]
    · rw [hrebuild] at heq
      cases heq
  | @refused t t' other e _ hrebuild he ih =>
    rcases t.rebuild_cases other with ⟨t'', -, heq⟩ | ⟨e', -, heq⟩
    · rw [hrebuild] at heq
      cases heq
    · rw [hrebuild, Prod.mk.injEq, Except.error.injEq] at heq
      obtain ⟨rfl, rfl⟩ := heq
      rw [if_neg he]
      exact ih

theorem SetUpFor.serves {t : SwapTable} {d : Device} (h : SetUpFor d t) : t.Serves d :=
  serves_of_build h.build_eq rfl fun _ _ => Iff.rfl

/-! ## Queries -/

/-- The refusal of a list that is no arrangement of `n` tokens. -/
def refusal (n : Nat) (values : List Nat) : DeviceError :=
  if values.length ≠ n then .sizeMismatch n values.length else .invalidPermutation n values

namespace Serves

variable {t : SwapTable} {d : Device} {S T : List Nat}

theorem check_of_not (h : t.Serves d) (hS : ¬ IsArrangement d.size S) :
    t.check S = .error (refusal d.size S) := by
  unfold check refusal
  rw [h.size_eq]
  split_ifs with hlen hperm
  · rfl
  · rw [not_not] at hlen
    rw [← hlen] at hS
    exact absurd (isPermutation_iff.1 hperm) hS
  · rfl

/-- A query about something that is no arrangement is refused, the first list before the second. -/
theorem refused (h : t.Serves d) :
    (¬ IsArrangement d.size S → t.find S T = .error (refusal d.size S) ∧
      t.swapCount S T = .error (refusal d.size S)) ∧
    (IsArrangement d.size S → ¬ IsArrangement d.size T →
      t.find S T = .error (refusal d.size T) ∧ t.swapCount S T = .error (refusal d.size T)) := by
  constructor
  · intro hS
    rw [find, swapCount, h.check_of_not hS]
    exact ⟨rfl, rfl⟩
  · intro hS hT
    rw [find, swapCount, h.check_eq_ok hS, h.check_of_not hT]
    exact ⟨rfl, rfl⟩

/-- Where no swaps lead, both queries say so. -/
theorem unreachable (h : t.Serves d) (hS : IsArrangement d.size S) (hT : IsArrangement d.size T)
    (hnone : ∀ k, ¬ Walk d.swapNext S k T) :
    t.find S T = .error (.permutationUnreachable (relabel S T)) ∧
      t.swapCount S T = .error (.permutationUnreachable (relabel S T)) := by
  have hentry : t.entry? (relabel S T) = some none :=
    (h.entry_none_iff (isArrangement_relabel hS hT)).2 fun k hk =>
      hnone k ((walk_relabel_iff hS hT).1 hk)
  rw [find, swapCount, h.check_eq_ok hS, h.check_eq_ok hT, hentry]
  exact ⟨rfl, rfl⟩

/-- Where swaps lead, both queries answer with the least number of them. -/
theorem answered (h : t.Serves d) (hS : IsArrangement d.size S) (hT : IsArrangement d.size T)
    {other : List (Nat × Nat)} (hother : d.SwapsLead other S T) :
    ∃ swaps, t.find S T = .ok swaps ∧ d.SwapsLead swaps S T ∧
      (∀ other, d.SwapsLead other S T → swaps.length ≤ other.length) ∧
      t.swapCount S T = .ok swaps.length := by
  have hwalk := (Device.swapWalk_iff hS.length_eq).2 ⟨other, rfl, hother⟩
  obtain ⟨k, -, hk⟩ := hwalk.exists_isDepth
  obtain ⟨swaps, hfind, rfl, hend, hall⟩ := h.find_of_isDepth hS hT hk
  refine ⟨swaps, hfind, ⟨hall, hend⟩, fun other hother => ?_, h.swapCount_of_isDepth hS hT hk⟩
  exact hk.2 _ ((Device.swapWalk_iff hS.length_eq).2 ⟨other, rfl, hother⟩)

end Serves

/-- **Swap queries are exact.** Between two arrangements swaps are found exactly if some lead from
the one to the other; then those found do so, no others that do are fewer, and they are counted
right. Otherwise both queries say that the arrangement is out of reach. If one of the lists is no
arrangement, both queries refuse it alike. -/
theorem find_exact {t : SwapTable} {d : Device} (h : SetUpFor d t) (S T : List Nat) :
    (IsArrangement d.size S → IsArrangement d.size T →
      ((∃ swaps, t.find S T = .ok swaps) ↔ ∃ swaps, d.SwapsLead swaps S T) ∧
      (∀ swaps, t.find S T = .ok swaps → d.SwapsLead swaps S T ∧
        (∀ other, d.SwapsLead other S T → swaps.length ≤ other.length) ∧
        t.swapCount S T = .ok swaps.length) ∧
      ((¬ ∃ swaps, d.SwapsLead swaps S T) →
        t.find S T = .error (.permutationUnreachable (relabel S T)) ∧
        t.swapCount S T = .error (.permutationUnreachable (relabel S T)))) ∧
    (¬ IsArrangement d.size S → t.find S T = .error (refusal d.size S) ∧
      t.swapCount S T = .error (refusal d.size S)) ∧
    (IsArrangement d.size S → ¬ IsArrangement d.size T →
      t.find S T = .error (refusal d.size T) ∧ t.swapCount S T = .error (refusal d.size T)) := by
  have hs := h.serves
  refine ⟨fun hS hT => ?_, hs.refused⟩
  by_cases hlead : ∃ swaps, d.SwapsLead swaps S T
  · obtain ⟨other, hother⟩ := hlead
    obtain ⟨swaps, hfind, hanswer⟩ := hs.answered hS hT hother
    refine ⟨⟨fun _ => ⟨other, hother⟩, fun _ => ⟨swaps, hfind⟩⟩, ?_, fun hnone => ?_⟩
    · intro swaps' hfind'
      rw [hfind] at hfind'
      cases hfind'
      exact hanswer
    · exact absurd ⟨other, hother⟩ hnone
  · have hnone : ∀ k, ¬ Walk d.swapNext S k T := by
      intro k hk
      obtain ⟨swaps, -, hswaps⟩ := (Device.swapWalk_iff hS.length_eq).1 hk
      exact hlead ⟨swaps, hswaps⟩
    obtain ⟨hfind, hcount⟩ := hs.unreachable hS hT hnone
    refine ⟨⟨?_, fun hsome => absurd hsome hlead⟩, ?_, fun _ => ⟨hfind, hcount⟩⟩
    · rintro ⟨swaps, hswaps⟩
      rw [hfind] at hswaps
      cases hswaps
    · intro swaps hswaps
      rw [hfind] at hswaps
      cases hswaps

/-- A table that was set up for two qubits, then for four of which one is not coupled, and was then
refused ten qubits. Three swaps turn a path of tokens around and fewer do not; the token of the
fourth qubit stays where it is. -/
theorem find_exact_path :
    let d := Device.ofNodup 4 [(0, 1), (2, 1)] (by decide) (by decide)
    let pair := Device.ofNodup 2 [(0, 1)] (by decide) (by decide)
    let wide := Device.ofNodup 10 [] (by decide) (by decide)
    ∃ before t, build pair = .ok before ∧ before.rebuild d = (t, .ok ()) ∧
      t.rebuild wide = (t, .error (.tooLarge 10 9)) ∧
      (∃ swaps, t.find [2, 1, 0, 3] [0, 1, 2, 3] = .ok swaps ∧ swaps.length = 3 ∧
        d.SwapsLead swaps [2, 1, 0, 3] [0, 1, 2, 3] ∧
        ∀ other, d.SwapsLead other [2, 1, 0, 3] [0, 1, 2, 3] → 3 ≤ other.length) ∧
      (¬ ∃ swaps, d.SwapsLead swaps [0, 1, 2, 3] [3, 1, 2, 0]) ∧
      t.swapCount [0, 1, 3] [0, 1, 2, 3] = .error (.sizeMismatch 4 3) ∧
      t.swapCount [0, 1, 2, 3] [0, 1, 1, 3] = .error (.invalidPermutation 4 [0, 1, 1, 3]) := by
  intro d pair wide
  obtain ⟨before, hbefore⟩ : ∃ before, build pair = .ok before := exists_build_iff.2 (by decide)
  obtain ⟨t, hbuild⟩ : ∃ t, build d = .ok t := exists_build_iff.2 (by decide)
  have ht : before.rebuild d = (t, .ok ()) := by rw [rebuild, hbuild]
  have hrefused : t.rebuild wide = (t, .error (.tooLarge 10 9)) := rfl
  have hexact := find_exact (.refused (.rebuilt ht) hrefused (by decide))
  have hperm : ∀ {S : List Nat}, isPermutation S = true → S.length = 4 →
      IsArrangement d.size S := by
    intro S hS hlen
    have := isPermutation_iff.1 hS
    rwa [hlen] at this
  have hfour := hperm (S := [0, 1, 2, 3]) (by decide) rfl
  refine ⟨before, t, hbefore, ht, hrefused, ?_, ?_, ?_, ?_⟩
  · have hfind : t.find [2, 1, 0, 3] [0, 1, 2, 3] = .ok [(0, 1), (1, 2), (0, 1)] :=
      of_build hbuild (by decide +kernel)
    obtain ⟨-, hanswer, -⟩ := (hexact [2, 1, 0, 3] [0, 1, 2, 3]).1 (hperm (by decide) rfl) hfour
    obtain ⟨hlead, hleast, -⟩ := hanswer _ hfind
    exact ⟨_, hfind, rfl, hlead, hleast⟩
  · have hfind : t.find [0, 1, 2, 3] [3, 1, 2, 0] =
        .error (.permutationUnreachable [3, 1, 2, 0]) :=
      of_build hbuild (by decide +kernel)
    obtain ⟨hiff, -, -⟩ := (hexact [0, 1, 2, 3] [3, 1, 2, 0]).1 hfour (hperm (by decide) rfl)
    rw [← hiff, hfind]
    rintro ⟨swaps, hswaps⟩
    cases hswaps
  · have hshort : ¬ IsArrangement d.size [0, 1, 3] := fun h => absurd h.length_eq (by decide)
    exact ((hexact [0, 1, 3] [0, 1, 2, 3]).2.1 hshort).2
  · have htwice : ¬ IsArrangement d.size [0, 1, 1, 3] := fun h => absurd h.nodup (by decide)
    exact ((hexact [0, 1, 2, 3] [0, 1, 1, 3]).2.2 hfour htwice).2

end SwapTable

end QubitAllocation
