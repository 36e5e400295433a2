import Mathlib.Tactic

/-!
# Walks and depths

`Walk next k x y` says that `k` steps lead from `x` to `y`, and `IsDepth next root k x` that `k` is
the least such number. Steps that can be taken back lead back by as many steps (`Walk.symm`,
`IsDepth.symm`). A `Numbering` is a set of states that steps do not leave, numbered by an index
without repetition.
-/

set_option autoImplicit false

namespace QubitAllocation.Search

variable {α : Type}

/-! ## Walks and depths -/

/-- A number of steps that leads from one state to another. -/
inductive Walk (next : α → List α) (x : α) : Nat → α → Prop
  | refl : Walk next x 0 x
  | step {k : Nat} {y z : α} : Walk next x k y → z ∈ next y → Walk next x (k + 1) z

/-- The least number of steps from the root to a state. -/
def IsDepth (next : α → List α) (root : α) (k : Nat) (x : α) : Prop :=
  Walk next root k x ∧ ∀ j, Walk next root j x → k ≤ j

section Depth

variable {next : α → List α} {root x y z : α} {j k : Nat}

theorem walk_zero_iff : Walk next x 0 y ↔ x = y := by
  constructor
  · intro h
    cases h
    rfl
  · rintro rfl
    exact .refl

theorem walk_succ_iff : Walk next x (k + 1) z ↔ ∃ y, Walk next x k y ∧ z ∈ next y := by
  constructor
  · intro h
    cases h with
    | step hy hz => exact ⟨_, hy, hz⟩
  · rintro ⟨y, hy, hz⟩
    exact .step hy hz

theorem Walk.trans (h : Walk next x j y) (h' : Walk next y k z) : Walk next x (j + k) z := by
  induction h' with
  | refl => exact h
  | step _ hz ih => exact .step ih hz

/-- A walk of some steps starts with one of them. -/
theorem walk_succ_iff_head : Walk next x (k + 1) z ↔ ∃ y ∈ next x, Walk next y k z := by
  constructor
  · intro h
    induction k generalizing z with
    | zero =>
      obtain ⟨y, hy, hz⟩ := walk_succ_iff.1 h
      obtain rfl := walk_zero_iff.1 hy
      exact ⟨z, hz, .refl⟩
    | succ k ih =>
      obtain ⟨y, hy, hz⟩ := walk_succ_iff.1 h
      obtain ⟨w, hw, hwy⟩ := ih hy
      exact ⟨w, hw, .step hwy hz⟩
  · rintro ⟨y, hy, hz⟩
    have h := (Walk.step .refl hy).trans hz
    rwa [Nat.zero_add, Nat.add_comm] at h

/-- A map that takes steps to steps takes walks to walks. -/
theorem Walk.map {β : Type} {next' : β → List β} {f : α → β}
    (hf : ∀ {x y}, y ∈ next x → f y ∈ next' (f x)) (h : Walk next x k y) :
    Walk next' (f x) k (f y) := by
  induction h with
  | refl => exact .refl
  | step _ hz ih => exact .step ih (hf hz)

/-- If steps can be taken back, so can walks. -/
theorem Walk.symm (hnext : ∀ {x y}, y ∈ next x → x ∈ next y) (h : Walk next x k y) :
    Walk next y k x := by
  induction h with
  | refl => exact .refl
  | step _ hz ih =>
    have hback := (Walk.step .refl (hnext hz)).trans ih
    rwa [Nat.zero_add, Nat.add_comm] at hback

theorem Walk.exists_isDepth (h : Walk next root k x) : ∃ j ≤ k, IsDepth next root j x := by
  induction k using Nat.strong_induction_on with
  | _ k ih =>
    by_cases hleast : ∀ j, Walk next root j x → k ≤ j
    · exact ⟨k, Nat.le_refl k, h, hleast⟩
    · push Not at hleast
      obtain ⟨j, hj, hjk⟩ := hleast
      obtain ⟨i, hij, hi⟩ := ih j hjk hj
      exact ⟨i, by omega, hi⟩

theorem IsDepth.unique (h : IsDepth next root j x) (h' : IsDepth next root k x) : j = k :=
  Nat.le_antisymm (h.2 k h'.1) (h'.2 j h.1)

/-- A state is at depth zero from itself and from no other. -/
theorem isDepth_zero_iff : IsDepth next x 0 y ↔ x = y := by
  constructor
  · intro h
    exact walk_zero_iff.1 h.1
  · rintro rfl
    exact ⟨.refl, fun j _ => Nat.zero_le j⟩

/-- If steps can be taken back, depths are the same in both directions. -/
theorem IsDepth.symm (hnext : ∀ {x y}, y ∈ next x → x ∈ next y) (h : IsDepth next x k y) :
    IsDepth next y k x :=
  ⟨h.1.symm hnext, fun j hj => h.2 j (hj.symm hnext)⟩

/-- Going by a third state is no shorter. -/
theorem IsDepth.exists_trans (h : IsDepth next x j y) (h' : IsDepth next y k z) :
    ∃ i ≤ j + k, IsDepth next x i z :=
  (h.1.trans h'.1).exists_isDepth

/-- A state of positive depth is one step from a state of the depth before. -/
theorem IsDepth.exists_pred (h : IsDepth next root (k + 1) z) :
    ∃ y, IsDepth next root k y ∧ z ∈ next y := by
  obtain ⟨y, hy, hz⟩ := walk_succ_iff.1 h.1
  refine ⟨y, ⟨hy, fun j hj => ?_⟩, hz⟩
  have := h.2 (j + 1) (.step hj hz)
  omega

end Depth

/-! ## Numbered states -/

/-- States that steps do not leave, numbered below `size` without repetition. -/
structure Numbering (size : Nat) (index : α → Nat) (next : α → List α) (dom : α → Prop) :
    Prop where
  closed : ∀ {x y}, dom x → y ∈ next x → dom y
  index_lt : ∀ {x}, dom x → index x < size
  index_inj : ∀ {x y}, dom x → dom y → index x = index y → x = y

theorem Walk.dom_of_dom {size : Nat} {index : α → Nat} {next : α → List α} {dom : α → Prop}
    {k : Nat} (num : Numbering size index next dom) {x y : α} (h : Walk next x k y) (hx : dom x) :
    dom y := by
  induction h with
  | refl => exact hx
  | step _ hz ih => exact num.closed ih hz

end QubitAllocation.Search
