import QubitAllocation.Total
import Mathlib.Algebra.BigOperators.Group.List.Lemmas
import Mathlib.Tactic

/-!
# Sums over lists

A sum over a list does not depend on the order (`total_perm`), is bounded by the number of summands
(`total_le`), and counts where the summands are zero or one (`total_eq_countP`).

Counts taken by key and then added up over the keys of a table are a sum over what was counted
(`total_countP_mul`): each element counts for the one entry whose key it has, if there is one.
-/

set_option autoImplicit false

namespace QubitAllocation

variable {α : Type} {f g : α → Nat} {xs ys : List α}

theorem total_eq_sum (f : α → Nat) (xs : List α) : total f xs = (xs.map f).sum := by
  induction xs with
  | nil => rfl
  | cons x xs ih => rw [total, ih, List.map_cons, List.sum_cons]

theorem total_congr (h : ∀ x ∈ xs, f x = g x) : total f xs = total g xs := by
  rw [total_eq_sum, total_eq_sum, List.map_congr_left h]

theorem total_perm (h : xs.Perm ys) : total f xs = total f ys := by
  rw [total_eq_sum, total_eq_sum]
  exact (h.map f).sum_eq

theorem total_map {β : Type} (h : β → α) (xs : List β) :
    total f (xs.map h) = total (fun x => f (h x)) xs := by
  rw [total_eq_sum, total_eq_sum, List.map_map]
  rfl

theorem total_add (f g : α → Nat) (xs : List α) :
    total (fun x => f x + g x) xs = total f xs + total g xs := by
  simp only [total_eq_sum, List.sum_map_add]

theorem total_le {b : Nat} (h : ∀ x ∈ xs, f x ≤ b) : total f xs ≤ xs.length * b := by
  induction xs with
  | nil => simp [total]
  | cons x xs ih =>
    rw [List.forall_mem_cons] at h
    have hrest := ih h.2
    rw [total, List.length_cons, Nat.succ_mul]
    omega

/-- Elements that count for nothing can be left out. -/
theorem total_filter {keep : α → Bool} (h : ∀ x, keep x = false → f x = 0) (xs : List α) :
    total f (xs.filter keep) = total f xs := by
  induction xs with
  | nil => rfl
  | cons x xs ih =>
    cases hx : keep x with
    | true => rw [List.filter_cons_of_pos hx, total, total, ih]
    | false => rw [List.filter_cons_of_neg (by simp [hx]), total, h x hx, ih, Nat.zero_add]

theorem total_eq_countP (c : α → Bool) (xs : List α) :
    total (fun x => if c x then 1 else 0) xs = xs.countP c := by
  induction xs with
  | nil => rfl
  | cons x xs ih => rw [total, ih, List.countP_cons, Nat.add_comm]

section Tables

variable {table : List (Nat × Nat)}

/-- At most one entry of a table has the key. -/
theorem total_of_key (hnd : (table.map Prod.fst).Nodup) (key : Option Nat) (g : Nat → Nat) :
    total (fun e => if key = some e.1 then g e.2 else 0) table =
      (key.bind fun k => table.lookup k).elim 0 g := by
  induction table with
  | nil => cases key <;> rfl
  | cons e table ih =>
    obtain ⟨k, v⟩ := e
    rw [List.map_cons, List.nodup_cons] at hnd
    rw [total, ih hnd.2]
    by_cases hk : key = some k
    · -- no later entry has the key again
      subst hk
      have hnone : table.lookup k = none := by
        rw [List.lookup_eq_none_iff]
        intro e he
        have hne : k ≠ e.1 := by
          rintro rfl
          exact hnd.1 (List.mem_map.2 ⟨e, he, rfl⟩)
        simpa using hne
      simp [hnone]
    · cases key with
      | none => simp
      | some j =>
        have hj : (j == k) = false := by simpa using hk
        simp [hk, List.lookup_cons, hj]

/-- **Counts by key**, each times the value of its entry, add up to the values that the elements
find in the table. -/
theorem total_countP_mul (hnd : (table.map Prod.fst).Nodup) (key : α → Option Nat) (g : Nat → Nat)
    (xs : List α) :
    total (fun e => (xs.countP fun x => key x == some e.1) * g e.2) table =
      total (fun x => ((key x).bind fun k => table.lookup k).elim 0 g) xs := by
  induction xs with
  | nil =>
    have hzero : total (fun e => ([].countP fun x : α => key x == some e.1) * g e.2) table ≤
        table.length * 0 := total_le (by simp)
    rw [total]
    omega
  | cons x xs ih =>
    have hsplit : ∀ e ∈ table, ((x :: xs).countP fun y => key y == some e.1) * g e.2 =
        (if key x = some e.1 then g e.2 else 0) +
          (xs.countP fun y => key y == some e.1) * g e.2 := by
      intro e _
      by_cases hx : key x = some e.1
      · simp [hx, Nat.add_mul, Nat.add_comm]
      · simp [hx]
    rw [total_congr hsplit, total_add, total_of_key hnd, ih, total]

end Tables

end QubitAllocation
