import QubitAllocation.Proofs.TokenQuery
import QubitAllocation.Proofs.TokenReach

/-!
# The number of swaps is a metric

A swap is undone by the same swap, so swap walks can be taken back (`Device.mem_swapNext_symm`), and
walks can be put one behind the other. A table set up for a device counts the swaps of a shortest
walk, although it holds only the walks from the identity. Hence its counts are symmetric, zero
between equal arrangements only, and obey the triangle inequality.

Renaming the tokens of both arrangements alike does not even change the cell that is looked up: the
tokens of the second are renamed after their places in the first, and these places do not depend on
what the tokens are called (`SwapTable.relabel_map`).
-/

set_option autoImplicit false

namespace QubitAllocation

open Arrangement Search

/-! ## Walks back -/

/-- A swap is taken back by the same swap. One that names a place beyond the end of the list has no
effect, and none the second time. -/
theorem Device.mem_swapNext_symm {d : Device} {M N : List Nat} (h : N ∈ d.swapNext M) :
    M ∈ d.swapNext N := by
  obtain ⟨⟨u, v⟩, hm, rfl⟩ := List.mem_map.1 h
  apply List.mem_map.2
  refine ⟨(u, v), hm, ?_⟩
  by_cases hlt : u < M.length ∧ v < M.length
  · exact exchange_exchange hlt.1 hlt.2
  · have hidle : exchange M u v = M := by
      unfold exchange
      split
      next a b ha hb =>
        obtain ⟨hu, -⟩ := List.getElem?_eq_some_iff.1 ha
        obtain ⟨hv, -⟩ := List.getElem?_eq_some_iff.1 hb
        exact absurd ⟨hu, hv⟩ hlt
      next => rfl
    simp [hidle]

/-! ## Renamed tokens -/

/-- The tokens of an arrangement, renamed by another one, are an arrangement again. -/
theorem Arrangement.IsArrangement.map_toPerm {n : Nat} {M names : List Nat}
    (hM : IsArrangement n M) (hnames : IsArrangement n names) :
    IsArrangement n (M.map hnames.toPerm) := by
  apply hM.map_of_inj
  · intro x hx
    obtain ⟨y, hy⟩ := hnames.exists_entry hx
    rw [hnames.toPerm_apply hy]
    exact hnames.entry_lt hy
  · exact fun x _ y _ h => hnames.toPerm.injective h

theorem Arrangement.idxOf_map {f : Nat → Nat} (hf : Function.Injective f) (M : List Nat)
    (v : Nat) : (M.map f).idxOf (f v) = M.idxOf v := by
  induction M with
  | nil => rfl
  | cons x M ih =>
    by_cases hx : x = v
    · simp [hx]
    · have hfx : f x ≠ f v := hf.ne hx
      simp [List.idxOf_cons_ne _ hx, List.idxOf_cons_ne _ hfx, ih]

namespace SwapTable

/-- The places of tokens do not depend on their names. -/
theorem relabel_map {f : Nat → Nat} (hf : Function.Injective f) (S T : List Nat) :
    relabel (S.map f) (T.map f) = relabel S T := by
  simp [relabel, idxOf_map hf]

namespace Serves

variable {t : SwapTable} {d : Device} {P Q R names : List Nat}

/-! ## The laws -/

/-- The counts in both directions are equal, or in neither direction do swaps lead. -/
theorem swapCount_symm (h : t.Serves d) (hP : IsArrangement d.size P)
    (hQ : IsArrangement d.size Q) :
    (∃ k, t.swapCount P Q = .ok k ∧ t.swapCount Q P = .ok k) ∨
    (t.swapCount P Q = .error (.permutationUnreachable (relabel P Q)) ∧
      t.swapCount Q P = .error (.permutationUnreachable (relabel Q P))) := by
  by_cases hwalk : ∃ k, Walk d.swapNext P k Q
  · obtain ⟨k, hk⟩ := hwalk
    obtain ⟨j, -, hj⟩ := hk.exists_isDepth
    apply Or.inl
    refine ⟨j, h.swapCount_of_isDepth hP hQ hj, ?_⟩
    exact h.swapCount_of_isDepth hQ hP (hj.symm Device.mem_swapNext_symm)
  · -- a walk back would be a walk there
    have hback : ∀ k, ¬ Walk d.swapNext Q k P := by
      intro k hk
      exact hwalk ⟨k, hk.symm Device.mem_swapNext_symm⟩
    obtain ⟨-, hcount⟩ := h.unreachable hP hQ (not_exists.1 hwalk)
    obtain ⟨-, hcount'⟩ := h.unreachable hQ hP hback
    exact Or.inr ⟨hcount, hcount'⟩

/-- No swap is needed between equal arrangements only. -/
theorem swapCount_eq_zero_iff (h : t.Serves d) (hP : IsArrangement d.size P)
    (hQ : IsArrangement d.size Q) : t.swapCount P Q = .ok 0 ↔ P = Q := by
  rw [h.swapCount_eq_ok_iff hP hQ, isDepth_zero_iff]

/-- Going by a third arrangement takes no fewer swaps. -/
theorem swapCount_triangle (h : t.Serves d) (hP : IsArrangement d.size P)
    (hQ : IsArrangement d.size Q) (hR : IsArrangement d.size R) {x y : Nat}
    (hx : t.swapCount P Q = .ok x) (hy : t.swapCount Q R = .ok y) :
    ∃ z, t.swapCount P R = .ok z ∧ z ≤ x + y := by
  rw [h.swapCount_eq_ok_iff hP hQ] at hx
  rw [h.swapCount_eq_ok_iff hQ hR] at hy
  obtain ⟨z, hle, hz⟩ := hx.exists_trans hy
  exact ⟨z, h.swapCount_of_isDepth hP hR hz, hle⟩

/-- What the tokens are called does not matter, for a count or for a refusal. -/
theorem swapCount_map (h : t.Serves d) (hP : IsArrangement d.size P) (hQ : IsArrangement d.size Q)
    (hnames : IsArrangement d.size names) :
    t.swapCount (P.map hnames.toPerm) (Q.map hnames.toPerm) = t.swapCount P Q := by
  simp only [swapCount, h.check_eq_ok hP, h.check_eq_ok hQ, h.check_eq_ok (hP.map_toPerm hnames),
    h.check_eq_ok (hQ.map_toPerm hnames), relabel_map hnames.toPerm.injective]

end Serves

/-- **The number of swaps is a metric that renaming tokens does not change.** Between two
arrangements it is the same in both directions, or out of reach in both; it is zero exactly if they
are equal; by way of a third arrangement that can be reached it is no smaller, and then the last one
can be reached as well. If the tokens of both are renamed by one permutation, it stays the same. -/
theorem swapCount_metric {t : SwapTable} {d : Device} (h : SetUpFor d t) {P Q R names : List Nat}
    (hP : IsArrangement d.size P) (hQ : IsArrangement d.size Q) (hR : IsArrangement d.size R)
    (hnames : IsArrangement d.size names) :
    ((∃ k, t.swapCount P Q = .ok k ∧ t.swapCount Q P = .ok k) ∨
      (t.swapCount P Q = .error (.permutationUnreachable (relabel P Q)) ∧
        t.swapCount Q P = .error (.permutationUnreachable (relabel Q P)))) ∧
    (t.swapCount P Q = .ok 0 ↔ P = Q) ∧
    (∀ x y, t.swapCount P Q = .ok x → t.swapCount Q R = .ok y →
      ∃ z, t.swapCount P R = .ok z ∧ z ≤ x + y) ∧
    t.swapCount (P.map hnames.toPerm) (Q.map hnames.toPerm) = t.swapCount P Q := by
  have hs := h.serves
  refine ⟨hs.swapCount_symm hP hQ, hs.swapCount_eq_zero_iff hP hQ, ?_,
    hs.swapCount_map hP hQ hnames⟩
  intro x y hx hy
  exact hs.swapCount_triangle hP hQ hR hx hy

/-- Four qubits of which three are a path, in a table that held another device before. Turning the
path around takes three swaps, there and back; by way of a third arrangement it takes as many; and
with the tokens renamed in turn it takes as many again. The fourth token cannot be moved, from
either side. -/
theorem swapCount_metric_path :
    let d := Device.ofNodup 4 [(0, 1), (2, 1)] (by decide) (by decide)
    let pair := Device.ofNodup 2 [(0, 1)] (by decide) (by decide)
    ∃ before t, build pair = .ok before ∧ before.rebuild d = (t, .ok ()) ∧
      t.swapCount [2, 1, 0, 3] [0, 1, 2, 3] = .ok 3 ∧
      t.swapCount [0, 1, 2, 3] [2, 1, 0, 3] = .ok 3 ∧
      t.swapCount [2, 1, 0, 3] [1, 2, 0, 3] = .ok 1 ∧
      (∃ z, t.swapCount [0, 1, 2, 3] [1, 2, 0, 3] = .ok z ∧ z ≤ 3 + 1) ∧
      t.swapCount [3, 2, 1, 0] [1, 2, 3, 0] = .ok 3 ∧
      t.swapCount [0, 1, 2, 3] [3, 1, 2, 0] = .error (.permutationUnreachable [3, 1, 2, 0]) ∧
      t.swapCount [3, 1, 2, 0] [0, 1, 2, 3] = .error (.permutationUnreachable [3, 1, 2, 0]) := by
  intro d pair
  obtain ⟨before, hbefore⟩ : ∃ before, build pair = .ok before := exists_build_iff.2 (by decide)
  obtain ⟨t, hbuild⟩ : ∃ t, build d = .ok t := exists_build_iff.2 (by decide)
  have ht : before.rebuild d = (t, .ok ()) := by rw [rebuild, hbuild]
  have hset : SetUpFor d t := .rebuilt ht
  have hperm : ∀ {S : List Nat}, isPermutation S = true → S.length = 4 →
      IsArrangement d.size S := by
    intro S hS hlen
    have := isPermutation_iff.1 hS
    rwa [hlen] at this
  have hid : IsArrangement d.size [0, 1, 2, 3] := hperm (by decide) rfl
  have hturned : IsArrangement d.size [2, 1, 0, 3] := hperm (by decide) rfl
  have hthird : IsArrangement d.size [1, 2, 0, 3] := hperm (by decide) rfl
  have hmoved : IsArrangement d.size [3, 1, 2, 0] := hperm (by decide) rfl
  have hnames : IsArrangement d.size [1, 2, 3, 0] := hperm (by decide) rfl
  have hback : t.swapCount [2, 1, 0, 3] [0, 1, 2, 3] = .ok 3 :=
    of_build hbuild (by decide +kernel)
  have hstep : t.swapCount [2, 1, 0, 3] [1, 2, 0, 3] = .ok 1 :=
    of_build hbuild (by decide +kernel)
  have hapart : t.swapCount [0, 1, 2, 3] [3, 1, 2, 0] =
      .error (.permutationUnreachable [3, 1, 2, 0]) :=
    of_build hbuild (by decide +kernel)
  obtain ⟨hsymm, -, htriangle, -⟩ := swapCount_metric hset hid hturned hthird hnames
  obtain ⟨-, -, -, hrename⟩ := swapCount_metric hset hturned hid hid hnames
  obtain ⟨hnone, -⟩ := swapCount_metric hset hid hmoved hid hnames
  have hthere : t.swapCount [0, 1, 2, 3] [2, 1, 0, 3] = .ok 3 := by
    simpa [hback] using hsymm
  refine ⟨before, t, hbefore, ht, hback, hthere, hstep, htriangle 3 1 hthere hstep, ?_, hapart, ?_⟩
  · exact hrename.trans hback
  · rcases hnone with ⟨k, hk, -⟩ | ⟨-, hnone⟩
    · rw [hapart] at hk
      cases hk
    · exact hnone

end SwapTable

end QubitAllocation
