import QubitAllocation.Choice
import Mathlib.Tactic

/-!
# The first best choice is one of the candidates

A choice is made whenever there is a candidate (`exists_firstBest`), it is one of them
(`mem_of_firstBest`), and the choice by least key has no larger key than any candidate
(`firstLeast_le`). Those that come before it have larger keys (`firstLeast_split`), so among the
candidates of least key it is the first in the order they are listed in (`firstLeast_filterMap`).
-/

set_option autoImplicit false

namespace QubitAllocation

variable {α : Type}

theorem foldl_better_mem (beats : α → α → Bool) (x : α) (xs : List α) :
    xs.foldl (better beats) x ∈ x :: xs := by
  induction xs generalizing x with
  | nil => exact List.mem_singleton.2 rfl
  | cons y ys ih =>
    rw [List.foldl_cons]
    by_cases hb : beats y x = true
    · rw [better, if_pos hb]
      exact List.mem_cons_of_mem x (ih y)
    · rw [better, if_neg hb, List.mem_cons]
      exact (List.mem_cons.1 (ih x)).imp_right (List.mem_cons_of_mem y)

theorem mem_of_firstBest {beats : α → α → Bool} {xs : List α} {x : α}
    (h : firstBest beats xs = some x) : x ∈ xs := by
  cases xs with
  | nil => cases h
  | cons y ys =>
    cases h
    exact foldl_better_mem beats y ys

theorem exists_firstBest (beats : α → α → Bool) {xs : List α} (h : xs ≠ []) :
    ∃ x, firstBest beats xs = some x := by
  cases xs with
  | nil => exact absurd rfl h
  | cons y ys => exact ⟨_, rfl⟩

/-- Keeping the lesser of two by key, again and again, ends at a least key. -/
theorem foldl_better_le (key : α → Nat) (x : α) (xs : List α) {y : α} (hy : y ∈ x :: xs) :
    key (xs.foldl (better fun x y => key x < key y) x) ≤ key y := by
  induction xs generalizing x y with
  | nil =>
    rw [List.mem_singleton.1 hy]
    exact Nat.le_refl _
  | cons z zs ih =>
    rw [List.foldl_cons]
    have hz : key (better (fun x y => decide (key x < key y)) x z) = min (key x) (key z) := by
      rw [better]
      split
      next hlt =>
        rw [decide_eq_true_eq] at hlt
        omega
      next hlt =>
        rw [decide_eq_true_eq] at hlt
        omega
    rcases List.mem_cons.1 hy with rfl | hy
    · exact (ih _ List.mem_cons_self).trans (by omega)
    · rcases List.mem_cons.1 hy with rfl | hy
      · exact (ih _ List.mem_cons_self).trans (by omega)
      · exact ih _ (List.mem_cons_of_mem _ hy)

theorem mem_of_firstLeast {key : α → Nat} {xs : List α} {x : α}
    (h : firstLeast key xs = some x) : x ∈ xs :=
  mem_of_firstBest h

theorem exists_firstLeast (key : α → Nat) {xs : List α} (h : xs ≠ []) :
    ∃ x, firstLeast key xs = some x :=
  exists_firstBest _ h

/-- The choice among images is the image of the choice. -/
theorem firstLeast_map {β : Type} (key : β → Nat) (f : α → β) (xs : List α) :
    firstLeast key (xs.map f) = (firstLeast (fun x => key (f x)) xs).map f := by
  cases xs with
  | nil => rfl
  | cons x xs =>
    refine congrArg some ?_
    rw [List.foldl_map]
    refine List.foldl_hom f fun best y => ?_
    unfold better
    split <;> rfl

/-- The best so far has an image, which is the best image so far. -/
theorem foldl_better_filterMap {β : Type} {key : α → Nat} {key' : β → Nat} {f : α → Option β}
    {xs : List α} (hf : ∀ x ∈ xs, ∃ y, f x = some y ∧ key' y = key x) {x : α} {y : β}
    (hx : f x = some y) (hkey : key' y = key x) :
    f (xs.foldl (better fun x y => key x < key y) x) =
      some ((xs.filterMap f).foldl (better fun x y => key' x < key' y) y) := by
  induction xs generalizing x y with
  | nil => exact hx
  | cons z zs ih =>
    obtain ⟨⟨w, hw, hkeyw⟩, hrest⟩ := List.forall_mem_cons.1 hf
    rw [List.filterMap_cons_some hw, List.foldl_cons, List.foldl_cons, better, better]
    by_cases hlt : key z < key x
    · rw [if_pos (decide_eq_true hlt), if_pos (decide_eq_true (by omega))]
      exact ih hrest hw hkeyw
    · rw [if_neg (by simpa using hlt), if_neg (by simp only [decide_eq_true_eq]; omega)]
      exact ih hrest hx hkey

/-- The choice among images that may fail, but do not, is the image of the choice. -/
theorem firstLeast_bind {β : Type} {key : α → Nat} {key' : β → Nat} {f : α → Option β} {xs : List α}
    (hf : ∀ x ∈ xs, ∃ y, f x = some y ∧ key' y = key x) :
    firstLeast key' (xs.filterMap f) = (firstLeast key xs).bind f := by
  cases xs with
  | nil => rfl
  | cons x xs =>
    obtain ⟨⟨y, hy, hkey⟩, hrest⟩ := List.forall_mem_cons.1 hf
    rw [List.filterMap_cons_some hy]
    exact (foldl_better_filterMap hrest hy hkey).symm

/-- The choice by least key has no larger key than any candidate. -/
theorem firstLeast_le {key : α → Nat} {xs : List α} {x y : α}
    (h : firstLeast key xs = some x) (hy : y ∈ xs) : key x ≤ key y := by
  cases xs with
  | nil => cases h
  | cons z zs =>
    cases h
    exact foldl_better_le key z zs hy

theorem foldl_better_split (key : α → Nat) (x : α) (xs : List α) :
    ∃ before after,
      x :: xs = before ++ xs.foldl (better fun x y => key x < key y) x :: after ∧
        ∀ y ∈ before, key (xs.foldl (better fun x y => key x < key y) x) < key y := by
  induction xs generalizing x with
  | nil => exact ⟨[], [], rfl, List.forall_mem_nil _⟩
  | cons z zs ih =>
    rw [List.foldl_cons, better]
    split
    next hlt =>
      -- `z` takes the place of `x`, which has a larger key than whatever is kept in the end
      rw [decide_eq_true_eq] at hlt
      obtain ⟨before, after, hsplit, hbefore⟩ := ih z
      have hle := foldl_better_le key z zs List.mem_cons_self
      refine ⟨x :: before, after, by rw [hsplit, List.cons_append], ?_⟩
      exact List.forall_mem_cons.2 ⟨hle.trans_lt hlt, hbefore⟩
    next hlt =>
      rw [decide_eq_true_eq, Nat.not_lt] at hlt
      obtain ⟨before, after, hsplit, hbefore⟩ := ih x
      cases before with
      | nil =>
        obtain ⟨hkept, -⟩ := List.cons.inj hsplit
        exact ⟨[], z :: zs, by rw [← hkept]; rfl, List.forall_mem_nil _⟩
      | cons y before =>
        -- `x` has been given up later, so what is kept has a smaller key than `x` and `z`
        obtain ⟨rfl, hrest⟩ := List.cons.inj hsplit
        rw [List.forall_mem_cons] at hbefore
        refine ⟨x :: z :: before, after, congrArg (fun rest => x :: z :: rest) hrest, ?_⟩
        simp only [List.forall_mem_cons]
        exact ⟨hbefore.1, hbefore.1.trans_le hlt, hbefore.2⟩

/-- The candidates before the choice by least key have larger keys. -/
theorem firstLeast_split {key : α → Nat} {xs : List α} {x : α}
    (h : firstLeast key xs = some x) :
    ∃ before after, xs = before ++ x :: after ∧ ∀ y ∈ before, key x < key y := by
  cases xs with
  | nil => cases h
  | cons z zs =>
    cases h
    exact foldl_better_split key z zs

/-- The choice among what ordered sources offer is offered by the first source that offers a least
key. -/
theorem firstLeast_filterMap {β : Type} {key : β → Nat} {f : α → Option β} {xs : List α} {b : β}
    {R : α → α → Prop} (hordered : xs.Pairwise R) (h : firstLeast key (xs.filterMap f) = some b) :
    ∃ x ∈ xs, f x = some b ∧
      ∀ y ∈ xs, ∀ b', f y = some b' → key b' ≤ key b → x = y ∨ R x y := by
  obtain ⟨before, after, hsplit, hbefore⟩ := firstLeast_split h
  obtain ⟨front, back, rfl, rfl, hback⟩ := List.filterMap_eq_append_iff.1 hsplit
  obtain ⟨silent, x, later, rfl, hsilent, hx, -⟩ := List.filterMap_eq_cons_iff.1 hback
  refine ⟨x, by simp, hx, fun y hy b' hb' hle => ?_⟩
  simp only [List.mem_append, List.mem_cons] at hy
  rcases hy with hfront | hsilent' | rfl | hlater
  · have hlt := hbefore b' (List.mem_filterMap.2 ⟨y, hfront, hb'⟩)
    omega
  · rw [hsilent y hsilent'] at hb'
    cases hb'
  · exact Or.inl rfl
  · obtain ⟨-, hrest, -⟩ := List.pairwise_append.1 hordered
    obtain ⟨-, hrest, -⟩ := List.pairwise_append.1 hrest
    exact Or.inr ((List.pairwise_cons.1 hrest).1 y hlater)

end QubitAllocation
