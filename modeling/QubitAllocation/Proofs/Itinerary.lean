import QubitAllocation.Proofs.Search
import Mathlib.Data.List.Shortlex

/-!
# Itineraries

An itinerary is a list of numbers that is followed from a state: each number is a place in the list
of successors of the state that one is at (`Search.follow`). The walks from a state are its
itineraries (`Search.walk_of_follow`, `Search.exists_follow_of_walk`).

Of two itineraries the shorter one is sooner, and of two that are equally long the one that is
lexicographically smaller (`Itinerary.Sooner`). Between two states there is at most one soonest
itinerary (`Search.Soonest`), the lexicographically smallest of the shortest ones.
-/

set_option autoImplicit false

namespace QubitAllocation

namespace Itinerary

/-- The first itinerary is shorter, or as long and lexicographically smaller. -/
def Sooner (k m : List Nat) : Prop := List.Shortlex (· < ·) k m

variable {k m n : List Nat} {i j : Nat}

theorem sooner_iff : Sooner k m ↔ k.length < m.length ∨
    k.length = m.length ∧ List.Lex (· < ·) k m :=
  List.shortlex_def

theorem not_sooner_self (k : List Nat) : ¬ Sooner k k :=
  irrefl_of (List.Shortlex (· < ·)) k

theorem sooner_or_eq_or_sooner (k m : List Nat) : Sooner k m ∨ k = m ∨ Sooner m k :=
  trichotomous_of (List.Shortlex (· < ·)) k m

theorem Sooner.trans (h : Sooner k m) (h' : Sooner m n) : Sooner k n := by
  rw [sooner_iff] at h h' ⊢
  rcases h with h | ⟨hlen, h⟩
  · rcases h' with h' | ⟨hlen', -⟩
    · exact Or.inl (h.trans h')
    · exact Or.inl (by omega)
  · rcases h' with h' | ⟨hlen', h'⟩
    · exact Or.inl (by omega)
    · exact Or.inr ⟨hlen.trans hlen', List.lex_trans Nat.lt_trans h h'⟩

theorem not_sooner_trans (h : ¬ Sooner m k) (h' : ¬ Sooner n m) : ¬ Sooner n k := by
  intro hn
  rcases sooner_or_eq_or_sooner m k with hm | rfl | hm
  · exact h hm
  · exact h' hn
  · exact h' (hn.trans hm)

theorem lex_append_of_length_eq (hlen : k.length = m.length) (h : List.Lex (· < ·) k m)
    (s t : List Nat) : List.Lex (· < ·) (k ++ s) (m ++ t) := by
  induction h with
  | nil => cases hlen
  | rel hlt => exact .rel hlt
  | cons _ ih => exact .cons (ih (Nat.succ.inj hlen))

/-- One more step each does not change which of two itineraries is sooner. -/
theorem Sooner.append_step (h : Sooner k m) (i j : Nat) : Sooner (k ++ [i]) (m ++ [j]) := by
  rw [sooner_iff] at h ⊢
  simp only [List.length_append, List.length_singleton]
  rcases h with h | ⟨hlen, h⟩
  · exact Or.inl (by omega)
  · exact Or.inr ⟨by omega, lex_append_of_length_eq hlen h [i] [j]⟩

theorem Sooner.asymm (h : Sooner k m) : ¬ Sooner m k :=
  fun h' => not_sooner_self k (h.trans h')

theorem sooner_append_step_iff : Sooner (k ++ [i]) (k ++ [j]) ↔ i < j := by
  constructor
  · intro h
    by_contra hle
    rcases Nat.lt_or_ge j i with hlt | hge
    · exact asymm_of (List.Shortlex (· < ·)) h
        (List.Shortlex.append_left ((List.shortlex_singleton_iff j i).2 hlt) k)
    · obtain rfl : i = j := by omega
      exact not_sooner_self _ h
  · intro h
    exact List.Shortlex.append_left ((List.shortlex_singleton_iff i j).2 h) k

/-- The last step decides only between itineraries that are equal up to it. -/
theorem sooner_of_append_step (h : Sooner (k ++ [i]) (m ++ [i])) : Sooner k m := by
  rcases sooner_or_eq_or_sooner k m with hlt | rfl | hlt
  · exact hlt
  · exact absurd h (not_sooner_self _)
  · exact absurd h (hlt.append_step i i).asymm

theorem not_sooner_nil (k : List Nat) : ¬ Sooner k [] := by
  rw [sooner_iff]
  rintro (h | ⟨-, h⟩)
  · exact Nat.not_lt_zero _ h
  · exact List.not_lex_nil h

theorem sooner_of_length_lt (h : k.length < m.length) : Sooner k m := List.Shortlex.of_length_lt h

end Itinerary

namespace Search

open Itinerary

variable {α : Type} {next : α → List α} {x y z : α} {i : Nat} {k m : List Nat}

/-! ## Following an itinerary -/

/-- Where an itinerary leads from a state, if each of its numbers is the place of a successor. -/
def follow (next : α → List α) : α → List Nat → Option α
  | x, [] => some x
  | x, i :: k => (next x)[i]?.bind fun y => follow next y k

/-- The states that an itinerary passes, both ends included. -/
def stops (next : α → List α) : α → List Nat → List α
  | x, [] => [x]
  | x, i :: k => x :: ((next x)[i]?.elim [] fun y => stops next y k)

theorem follow_cons_eq_some_iff : follow next x (i :: k) = some z ↔
    ∃ y, (next x)[i]? = some y ∧ follow next y k = some z :=
  Option.bind_eq_some_iff

theorem follow_append (next : α → List α) (x : α) (k m : List Nat) :
    follow next x (k ++ m) = (follow next x k).bind fun y => follow next y m := by
  induction k generalizing x with
  | nil => rfl
  | cons i k ih =>
    rw [List.cons_append, follow, follow, Option.bind_assoc]
    exact Option.bind_congr fun y _ => ih y

theorem follow_append_step_eq_some_iff : follow next x (k ++ [i]) = some z ↔
    ∃ y, follow next x k = some y ∧ (next y)[i]? = some z := by
  rw [follow_append, Option.bind_eq_some_iff]
  simp [follow]

theorem stops_append_step (h : follow next x (k ++ [i]) = some z) :
    stops next x (k ++ [i]) = stops next x k ++ [z] := by
  induction k generalizing x with
  | nil =>
    obtain ⟨y, hy, hz⟩ := follow_cons_eq_some_iff.1 h
    cases hz
    simp [stops, hy]
  | cons j k ih =>
    obtain ⟨y, hy, hz⟩ := follow_cons_eq_some_iff.1 h
    simp only [List.cons_append, stops, hy, Option.elim_some, ih hz]

/-- Each number of an itinerary is one step. -/
theorem walk_of_follow (h : follow next x k = some z) : Walk next x k.length z := by
  induction k generalizing x with
  | nil =>
    cases h
    exact .refl
  | cons i k ih =>
    obtain ⟨y, hy, hz⟩ := follow_cons_eq_some_iff.1 h
    exact walk_succ_iff_head.2 ⟨y, List.mem_of_getElem? hy, ih hz⟩

theorem exists_follow_of_walk {n : Nat} (h : Walk next x n z) :
    ∃ k, k.length = n ∧ follow next x k = some z := by
  induction h with
  | refl => exact ⟨[], rfl, rfl⟩
  | step _ hz ih =>
    obtain ⟨k, hlen, hk⟩ := ih
    obtain ⟨i, hi⟩ := List.getElem?_of_mem hz
    refine ⟨k ++ [i], ?_, follow_append_step_eq_some_iff.2 ⟨_, hk, hi⟩⟩
    rw [List.length_append, hlen, List.length_singleton]

/-! ## The soonest itinerary -/

/-- The itinerary leads from `x` to `z`, and none that does is sooner. -/
structure Soonest (next : α → List α) (x z : α) (k : List Nat) : Prop where
  leads : follow next x k = some z
  first : ∀ m, follow next x m = some z → ¬ Sooner m k

theorem Soonest.unique (h : Soonest next x z k) (h' : Soonest next x z m) : k = m := by
  rcases sooner_or_eq_or_sooner k m with hlt | heq | hlt
  · exact absurd hlt (h'.first k h.leads)
  · exact heq
  · exact absurd hlt (h.first m h'.leads)

/-- The soonest itinerary to a state goes by the soonest to the state before it. -/
theorem Soonest.of_append_step (h : Soonest next x z (k ++ [i])) (hy : follow next x k = some y) :
    Soonest next x y k := by
  refine ⟨hy, fun m hm hlt => h.first (m ++ [i]) ?_ (hlt.append_step i i)⟩
  obtain ⟨y', hy', hz⟩ := follow_append_step_eq_some_iff.1 h.leads
  cases hy.symm.trans hy'
  exact follow_append_step_eq_some_iff.2 ⟨y, hm, hz⟩

/-- The soonest itinerary has as many steps as are needed. -/
theorem Soonest.isDepth (h : Soonest next x z k) : IsDepth next x k.length z := by
  refine ⟨walk_of_follow h.leads, fun j hj => ?_⟩
  obtain ⟨m, hlen, hm⟩ := exists_follow_of_walk hj
  by_contra hlt
  exact h.first m hm (sooner_of_length_lt (by omega))

/-- Every other itinerary that is as long is lexicographically larger. -/
theorem Soonest.lex (h : Soonest next x z k) (hm : follow next x m = some z)
    (hlen : m.length = k.length) (hne : m ≠ k) : List.Lex (· < ·) k m := by
  rcases sooner_or_eq_or_sooner m k with hlt | heq | hlt
  · exact absurd hlt (h.first m hm)
  · exact absurd heq hne
  · rcases sooner_iff.1 hlt with hshort | ⟨-, hlex⟩
    · omega
    · exact hlex

end Search

end QubitAllocation
