import QubitAllocation.Proofs.Arrangement

/-!
# Ranks and the list of all arrangements

The rank of an arrangement is a number in the factorial system: each entry counts the smaller
entries after it (`rank_eq_lehmer`). It is below the number of arrangements (`rank_lt_orders`), and
no two arrangements have the same rank (`rank_inj`). `enumerate n` lists the arrangements of `n`
things and nothing else (`mem_enumerate_iff`).
-/

set_option autoImplicit false

namespace QubitAllocation.Arrangement

/-- The value of a list in the factorial system: each entry counts the smaller entries after it. -/
def lehmer : List Nat → Nat
  | [] => 0
  | x :: xs => xs.countP (· < x) * orders xs.length + lehmer xs

/-! ## Ranks as numbers -/

theorem countBelow_eq (x acc : Nat) (xs : List Nat) :
    countBelow x acc xs = acc + xs.countP (· < x) := by
  induction xs generalizing acc with
  | nil => rfl
  | cons y ys ih =>
    rw [countBelow, ih, List.countP_cons]
    by_cases hy : y < x
    · simp [hy]
      omega
    · simp [hy]

theorem rankFrom_eq (acc : Nat) (xs : List Nat) :
    rankFrom acc xs.length xs = acc * orders xs.length + lehmer xs := by
  induction xs generalizing acc with
  | nil => simp [rankFrom, orders, lehmer]
  | cons x xs ih =>
    rw [rankFrom, List.length_cons, Nat.add_sub_cancel, ih, countBelow_eq, orders, lehmer]
    ring

theorem rank_eq_lehmer (xs : List Nat) : rank xs = lehmer xs := by
  rw [rank, rankFrom_eq, Nat.zero_mul, Nat.zero_add]

theorem lehmer_lt_orders (xs : List Nat) : lehmer xs < orders xs.length := by
  induction xs with
  | nil => exact Nat.one_pos
  | cons x xs ih =>
    rw [lehmer, List.length_cons, orders]
    calc xs.countP (· < x) * orders xs.length + lehmer xs
        < xs.countP (· < x) * orders xs.length + orders xs.length := by omega
      _ = (xs.countP (· < x) + 1) * orders xs.length := by ring
      _ ≤ (xs.length + 1) * orders xs.length :=
          Nat.mul_le_mul_right _ (Nat.succ_le_succ List.countP_le_length)

theorem rank_lt_orders {n : Nat} {M : List Nat} (h : IsArrangement n M) : rank M < orders n := by
  rw [rank_eq_lehmer, ← h.length_eq]
  exact lehmer_lt_orders M

/-! ## Distinct ranks -/

/-- More entries are below a larger bound, if an entry lies between. -/
theorem countP_lt_of_mem {pool : List Nat} {x y : Nat} (hx : x ∈ pool) (hxy : x < y) :
    pool.countP (· < x) < pool.countP (· < y) := by
  have hmono : ∀ zs : List Nat, zs.countP (· < x) ≤ zs.countP (· < y) := by
    intro zs
    apply List.countP_mono_left
    intro z _ hz
    simp only [decide_eq_true_eq] at hz ⊢
    omega
  induction pool with
  | nil => exact absurd hx List.not_mem_nil
  | cons z zs ih =>
    rw [List.countP_cons, List.countP_cons]
    rcases List.mem_cons.1 hx with rfl | hx
    · have := hmono zs
      simp [hxy]
      omega
    · have := ih hx
      by_cases hzx : z < x
      · have hzy : z < y := by omega
        simp [hzx, hzy]
        omega
      · simp [hzx]
        omega

/-- An entry is known from the number of smaller ones. -/
theorem eq_of_countP_eq {pool : List Nat} {x y : Nat} (hx : x ∈ pool) (hy : y ∈ pool)
    (h : pool.countP (· < x) = pool.countP (· < y)) : x = y := by
  rcases Nat.lt_trichotomy x y with hlt | heq | hgt
  · have := countP_lt_of_mem hx hlt
    omega
  · exact heq
  · have := countP_lt_of_mem hy hgt
    omega

/-- A number in a positional system determines its leading digit and the rest. -/
theorem digit_eq {base a b r s : Nat} (hr : r < base) (hs : s < base)
    (h : a * base + r = b * base + s) : a = b ∧ r = s := by
  have hpos : 0 < base := by omega
  have hdiv := congrArg (· / base) h
  have hmod := congrArg (· % base) h
  simp only [Nat.mul_comm _ base, Nat.mul_add_div hpos, Nat.div_eq_of_lt hr, Nat.div_eq_of_lt hs,
    Nat.add_zero] at hdiv
  simp only [Nat.mul_comm _ base, Nat.mul_add_mod, Nat.mod_eq_of_lt hr, Nat.mod_eq_of_lt hs]
    at hmod
  exact ⟨hdiv, hmod⟩

/-- Two orders of the same distinct entries with the same value are the same. -/
theorem lehmer_inj {xs ys : List Nat} (hperm : xs.Perm ys) (hnd : xs.Nodup)
    (h : lehmer xs = lehmer ys) : xs = ys := by
  induction xs generalizing ys with
  | nil => exact (List.nil_perm.1 hperm).symm
  | cons x xs ih =>
    cases ys with
    | nil => exact absurd hperm.symm (List.not_perm_nil_cons x xs)
    | cons y ys =>
      have hlen : xs.length = ys.length := by simpa using hperm.length_eq
      have hys := lehmer_lt_orders ys
      rw [← hlen] at hys
      rw [lehmer, lehmer, ← hlen] at h
      obtain ⟨hcount, htail⟩ := digit_eq (lehmer_lt_orders xs) hys h
      -- counted in the whole pool, which the two lists share, the heads have the same rank
      have hx : x ∈ x :: xs := List.mem_cons_self
      have hy : y ∈ x :: xs := hperm.mem_iff.2 List.mem_cons_self
      have hxy : x = y := by
        apply eq_of_countP_eq hx hy
        rw [hperm.countP_eq (· < y), List.countP_cons, List.countP_cons]
        simpa using hcount
      subst hxy
      rw [ih (List.perm_cons x |>.1 hperm) (List.nodup_cons.1 hnd).2 htail]

/-- No two arrangements have the same rank. -/
theorem rank_inj {n : Nat} {M N : List Nat} (hM : IsArrangement n M) (hN : IsArrangement n N)
    (h : rank M = rank N) : M = N := by
  rw [rank_eq_lehmer, rank_eq_lehmer] at h
  exact lehmer_inj (hM.trans hN.symm) hM.nodup h

/-! ## All arrangements -/

/-- Choosing all of a pool gives its orders. -/
theorem mem_choices_iff {pool l : List Nat} (hnd : pool.Nodup) :
    l ∈ choices pool.length pool ↔ l.Perm pool := by
  induction hk : pool.length generalizing pool l with
  | zero =>
    rw [List.length_eq_zero_iff] at hk
    subst hk
    rw [choices, List.mem_singleton, List.perm_nil]
  | succ k ih =>
    rw [choices, List.mem_flatMap]
    have hlen : ∀ x ∈ pool, (pool.erase x).length = k := by
      intro x hx
      rw [List.length_erase_of_mem hx]
      omega
    constructor
    · rintro ⟨x, hx, hl⟩
      obtain ⟨l', hl', rfl⟩ := List.mem_map.1 hl
      have hperm := (ih (hnd.erase x) (hlen x hx)).1 hl'
      exact (hperm.cons x).trans (List.perm_cons_erase hx).symm
    · intro hperm
      cases l with
      | nil =>
        have := hperm.length_eq
        rw [List.length_nil] at this
        omega
      | cons x l' =>
        obtain ⟨hx, hl'⟩ := List.cons_perm_iff_perm_erase.1 hperm
        exact ⟨x, hx, List.mem_map.2 ⟨l', (ih (hnd.erase x) (hlen x hx)).2 hl', rfl⟩⟩

/-- The list of all arrangements holds the arrangements and nothing else. -/
theorem mem_enumerate_iff {n : Nat} {M : List Nat} : M ∈ enumerate n ↔ IsArrangement n M := by
  have h := mem_choices_iff (l := M) (List.nodup_range (n := n))
  rwa [List.length_range] at h

end QubitAllocation.Arrangement
