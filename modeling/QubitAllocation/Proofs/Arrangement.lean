import QubitAllocation.Token.Arrangement
import Mathlib.Logic.Equiv.Basic
import Mathlib.Tactic

/-!
# Arrangements as permutations

`IsArrangement n M` says that `M` holds each of `0, …, n - 1` once. The executable test agrees with
it (`isPermutation_iff`). An exchange of two places composes the list with a transposition of its
places (`getElem?_exchange`) and keeps an arrangement an arrangement; the inverse reads an
arrangement backwards (`getElem?_inverse_iff`), and exchanging two places of an arrangement
exchanges, in the inverse, the two entries that stood there (`inverse_exchange`).
-/

set_option autoImplicit false

namespace QubitAllocation.Arrangement

/-- The list holds each of `0, …, n - 1` once. -/
def IsArrangement (n : Nat) (M : List Nat) : Prop := M.Perm (List.range n)

/-! ## Places and entries -/

section Places

variable {n : Nat} {M : List Nat}

theorem IsArrangement.length_eq (h : IsArrangement n M) : M.length = n := by
  rw [List.Perm.length_eq h, List.length_range]

theorem IsArrangement.nodup (h : IsArrangement n M) : M.Nodup :=
  (List.Perm.nodup_iff h).2 List.nodup_range

theorem IsArrangement.mem_iff (h : IsArrangement n M) {v : Nat} : v ∈ M ↔ v < n := by
  rw [List.Perm.mem_iff h, List.mem_range]

/-- The entries are below `n`. -/
theorem IsArrangement.entry_lt (h : IsArrangement n M) {i v : Nat} (hi : M[i]? = some v) :
    v < n :=
  h.mem_iff.1 (List.mem_of_getElem? hi)

/-- The places are below `n`. -/
theorem IsArrangement.place_lt (h : IsArrangement n M) {i v : Nat} (hi : M[i]? = some v) :
    i < n := by
  obtain ⟨hlt, -⟩ := List.getElem?_eq_some_iff.1 hi
  rwa [h.length_eq] at hlt

/-- Every place has an entry. -/
theorem IsArrangement.exists_entry (h : IsArrangement n M) {i : Nat} (hi : i < n) :
    ∃ v, M[i]? = some v := by
  rw [← h.length_eq] at hi
  exact ⟨M[i], List.getElem?_eq_getElem hi⟩

/-- Every entry has a place. -/
theorem IsArrangement.exists_place (h : IsArrangement n M) {v : Nat} (hv : v < n) :
    ∃ i : Nat, M[i]? = some v :=
  List.mem_iff_getElem?.1 (h.mem_iff.2 hv)

/-- No entry has two places. -/
theorem IsArrangement.place_unique (h : IsArrangement n M) {i j v : Nat} (hi : M[i]? = some v)
    (hj : M[j]? = some v) : i = j := by
  have hlt : i < M.length := by
    rw [h.length_eq]
    exact h.place_lt hi
  exact (List.getElem?_inj hlt h.nodup).1 (hi.trans hj.symm)

/-- A list of distinct numbers below its length is an arrangement. -/
theorem isArrangement_of_nodup (hlen : M.length = n) (hnd : M.Nodup) (hlt : ∀ v ∈ M, v < n) :
    IsArrangement n M := by
  have hsub : M.Subperm (List.range n) :=
    hnd.subperm fun v hv => List.mem_range.2 (hlt v hv)
  exact hsub.perm_of_length_le (by rw [List.length_range, hlen])

/-- Renamed by a permutation of the numbers below its length, an arrangement stays one. -/
theorem IsArrangement.map_of_inj {f : Nat → Nat} (h : IsArrangement n M) (hlt : ∀ v < n, f v < n)
    (hinj : ∀ v < n, ∀ w < n, f v = f w → v = w) : IsArrangement n (M.map f) := by
  apply isArrangement_of_nodup
  · rw [List.length_map, h.length_eq]
  · rw [List.nodup_map_iff_inj_on h.nodup]
    intro v hv w hw heq
    exact hinj v (h.mem_iff.1 hv) w (h.mem_iff.1 hw) heq
  · intro x hx
    obtain ⟨v, hv, rfl⟩ := List.mem_map.1 hx
    exact hlt v (h.mem_iff.1 hv)

theorem isArrangement_identity (n : Nat) : IsArrangement n (identity n) := List.Perm.refl _

/-- A run over the flags meets none that is set if the numbers are distinct and had theirs unset. -/
theorem allFresh_iff {seen : Array Bool} {values : List Nat} :
    allFresh seen values = true ↔ (∀ v ∈ values, seen[v]? = some false) ∧ values.Nodup := by
  induction values generalizing seen with
  | nil => simp [allFresh]
  | cons w rest ih =>
    rw [allFresh, List.forall_mem_cons, List.nodup_cons]
    split
    next hw =>
      -- once the flag of `w` is set, the others are unset just if they were and are not `w`
      have hflags : ∀ v, (seen.setIfInBounds w true)[v]? = some false ↔
          seen[v]? = some false ∧ w ≠ v := by
        intro v
        rw [Array.getElem?_setIfInBounds]
        grind
      rw [ih]
      simp only [hflags]
      constructor
      · rintro ⟨hrest, hnd⟩
        exact ⟨⟨hw, fun v hv => (hrest v hv).1⟩, fun hmem => (hrest w hmem).2 rfl, hnd⟩
      · rintro ⟨⟨-, hrest⟩, hnot, hnd⟩
        exact ⟨fun v hv => ⟨hrest v hv, fun heq => hnot (heq ▸ hv)⟩, hnd⟩
    next hw =>
      constructor
      · intro h
        cases h
      · rintro ⟨⟨hw', -⟩, -⟩
        exact absurd hw' hw

/-- The test for arrangements is exact. -/
theorem isPermutation_iff : isPermutation M = true ↔ IsArrangement M.length M := by
  have hflag : ∀ v, (Array.replicate M.length false)[v]? = some false ↔ v < M.length := by
    intro v
    rw [Array.getElem?_replicate]
    split <;> simp [*]
  simp only [isPermutation, allFresh_iff, hflag]
  constructor
  · rintro ⟨hlt, hnd⟩
    exact isArrangement_of_nodup rfl hnd hlt
  · intro h
    exact ⟨fun v hv => h.mem_iff.1 hv, h.nodup⟩

end Places

/-! ## Exchanges -/

section Exchange

variable {n : Nat} {M : List Nat} {a b : Nat}

@[simp]
theorem length_exchange (M : List Nat) (a b : Nat) : (exchange M a b).length = M.length := by
  unfold exchange
  split <;> simp

/-- Two places of the list exchange their entries and nothing else changes. -/
theorem getElem?_exchange (ha : a < M.length) (hb : b < M.length) (i : Nat) :
    (exchange M a b)[i]? = M[Equiv.swap a b i]? := by
  rw [exchange, List.getElem?_eq_getElem ha, List.getElem?_eq_getElem hb, Equiv.swap_apply_def]
  simp only [List.getElem?_set, List.length_set]
  by_cases hib : i = b
  · subst hib
    by_cases hia : i = a
    · subst hia
      simp [ha]
    · simp [hia, ha, hb]
  · by_cases hia : i = a
    · subst hia
      simp [Ne.symm hib, ha, hb]
    · simp [Ne.symm hib, Ne.symm hia, hia, hib]

theorem exchange_perm (M : List Nat) (a b : Nat) : (exchange M a b).Perm M := by
  unfold exchange
  split
  next x y hx hy =>
    obtain ⟨ha, rfl⟩ := List.getElem?_eq_some_iff.1 hx
    obtain ⟨hb, rfl⟩ := List.getElem?_eq_some_iff.1 hy
    exact List.set_set_perm ha hb
  next => exact List.Perm.refl M

theorem IsArrangement.exchange (h : IsArrangement n M) (a b : Nat) :
    IsArrangement n (exchange M a b) :=
  (exchange_perm M a b).trans h

theorem exchange_comm (ha : a < M.length) (hb : b < M.length) :
    Arrangement.exchange M a b = Arrangement.exchange M b a := by
  apply List.ext_getElem?
  intro i
  rw [getElem?_exchange ha hb, getElem?_exchange hb ha, Equiv.swap_comm]

/-- An exchange undoes itself. -/
theorem exchange_exchange (ha : a < M.length) (hb : b < M.length) :
    Arrangement.exchange (Arrangement.exchange M a b) a b = M := by
  apply List.ext_getElem?
  intro i
  rw [getElem?_exchange (by simpa) (by simpa), getElem?_exchange ha hb, Equiv.swap_apply_self]

theorem getElem?_exchange_of_ne {i : Nat} (ha : a < M.length) (hb : b < M.length) (hia : i ≠ a)
    (hib : i ≠ b) : (Arrangement.exchange M a b)[i]? = M[i]? := by
  rw [getElem?_exchange ha hb, Equiv.swap_apply_of_ne_of_ne hia hib]

/-- Renaming the entries does not meddle with an exchange of places. -/
theorem map_exchange (f : Nat → Nat) (M : List Nat) (a b : Nat) :
    (Arrangement.exchange M a b).map f = Arrangement.exchange (M.map f) a b := by
  simp only [Arrangement.exchange, List.getElem?_map]
  cases M[a]? with
  | none => rfl
  | some x =>
    cases M[b]? with
    | none => rfl
    | some y => simp [List.map_set]

end Exchange

/-! ## Inverses -/

section Inverse

variable {n : Nat} {M : List Nat}

theorem size_foldl_notePlace (entries : List (Nat × Nat)) (places : Array Nat) :
    (entries.foldl notePlace places).size = places.size := by
  induction entries generalizing places with
  | nil => rfl
  | cons e entries ih =>
    rw [List.foldl_cons, ih]
    exact Array.size_setIfInBounds

/-- A place noted once stays noted. -/
theorem getElem?_foldl_notePlace {entries : List (Nat × Nat)} {places : Array Nat} {v i : Nat}
    (hnd : (entries.map Prod.fst).Nodup) (hv : v < places.size)
    (h : (v, i) ∈ entries ∨ v ∉ entries.map Prod.fst ∧ places[v]? = some i) :
    (entries.foldl notePlace places)[v]? = some i := by
  induction entries generalizing places with
  | nil =>
    rcases h with h | ⟨-, h⟩
    · exact absurd h List.not_mem_nil
    · exact h
  | cons e entries ih =>
    rw [List.map_cons, List.nodup_cons] at hnd
    rw [List.foldl_cons]
    apply ih hnd.2 (by rwa [notePlace, Array.size_setIfInBounds])
    rw [notePlace, Array.getElem?_setIfInBounds]
    rcases h with h | ⟨hnot, h⟩
    · rcases List.mem_cons.1 h with rfl | h
      · exact Or.inr ⟨hnd.1, by simp [hv]⟩
      · exact Or.inl h
    · rw [List.map_cons, List.mem_cons, not_or] at hnot
      exact Or.inr ⟨hnot.2, by rw [if_neg (Ne.symm hnot.1), h]⟩

theorem length_inverse (M : List Nat) : (inverse M).length = M.length := by
  rw [inverse, Array.length_toList, size_foldl_notePlace, Array.size_replicate]

/-- The inverse has the places of an arrangement as its entries and the entries as its places. -/
theorem getElem?_inverse_iff (h : IsArrangement n M) {v i : Nat} :
    (inverse M)[v]? = some i ↔ M[i]? = some v := by
  have key : ∀ {v i : Nat}, M[i]? = some v → (inverse M)[v]? = some i := by
    intro v i hi
    rw [inverse, Array.getElem?_toList]
    apply getElem?_foldl_notePlace
    · rw [List.zipIdx_map_fst]
      exact h.nodup
    · rw [Array.size_replicate, h.length_eq]
      exact h.entry_lt hi
    · exact Or.inl (List.mem_zipIdx_iff_getElem?.2 hi)
  constructor
  · intro hv
    have hlt : v < n := by
      obtain ⟨hlt, -⟩ := List.getElem?_eq_some_iff.1 hv
      rwa [length_inverse, h.length_eq] at hlt
    obtain ⟨j, hj⟩ := h.exists_place hlt
    have hij : i = j := Option.some.inj (hv.symm.trans (key hj))
    rwa [hij]
  · exact key

theorem IsArrangement.inverse (h : IsArrangement n M) : IsArrangement n (inverse M) := by
  apply isArrangement_of_nodup
  · rw [length_inverse, h.length_eq]
  · rw [List.nodup_iff_getElem?_ne_getElem?]
    intro v w hvw hw heq
    obtain ⟨i, hi⟩ : ∃ i, (Arrangement.inverse M)[w]? = some i :=
      ⟨_, List.getElem?_eq_getElem hw⟩
    have hv : M[i]? = some v := (getElem?_inverse_iff h).1 (heq.trans hi)
    have hw' : M[i]? = some w := (getElem?_inverse_iff h).1 hi
    have : v = w := Option.some.inj (hv.symm.trans hw')
    omega
  · intro i hi
    obtain ⟨v, hv⟩ := List.mem_iff_getElem?.1 hi
    exact h.place_lt ((getElem?_inverse_iff h).1 hv)

theorem inverse_inverse (h : IsArrangement n M) :
    Arrangement.inverse (Arrangement.inverse M) = M := by
  apply List.ext_getElem?
  intro i
  apply Option.ext
  intro v
  rw [getElem?_inverse_iff h.inverse, getElem?_inverse_iff h]

/-- Exchanging two places exchanges their entries in the inverse. -/
theorem inverse_exchange (h : IsArrangement n M) {a b u v : Nat} (ha : M[a]? = some u)
    (hb : M[b]? = some v) :
    Arrangement.inverse (Arrangement.exchange M a b) =
      Arrangement.exchange (Arrangement.inverse M) u v := by
  have hlen : M.length = n := h.length_eq
  have hleni : (Arrangement.inverse M).length = n := h.inverse.length_eq
  have hal : a < M.length := hlen ▸ h.place_lt ha
  have hbl : b < M.length := hlen ▸ h.place_lt hb
  have hul : u < (Arrangement.inverse M).length := hleni ▸ h.entry_lt ha
  have hvl : v < (Arrangement.inverse M).length := hleni ▸ h.entry_lt hb
  apply List.ext_getElem?
  intro w
  apply Option.ext
  intro i
  rw [getElem?_inverse_iff (h.exchange a b), getElem?_exchange hal hbl, getElem?_exchange hul hvl,
    getElem?_inverse_iff h, Equiv.swap_apply_def, Equiv.swap_apply_def]
  by_cases hia : i = a
  · subst hia
    rw [if_pos rfl, hb, ha, Option.some.injEq, Option.some.injEq]
    split_ifs with hwu hwv
    · rw [hwu, eq_comm]
    · simp [hwv]
    · exact ⟨fun hvw => absurd hvw.symm hwv, fun huw => absurd huw.symm hwu⟩
  · by_cases hib : i = b
    · subst hib
      rw [if_neg hia, if_pos rfl, ha, hb, Option.some.injEq, Option.some.injEq]
      split_ifs with hwu hwv
      · simp [hwu]
      · rw [hwv, eq_comm]
      · exact ⟨fun huw => absurd huw.symm hwu, fun hvw => absurd hvw.symm hwv⟩
    · rw [if_neg hia, if_neg hib]
      split_ifs with hwu hwv
      · subst hwu
        exact ⟨fun hw => absurd (h.place_unique hw ha) hia,
          fun hw => absurd (h.place_unique hw hb) hib⟩
      · subst hwv
        exact ⟨fun hw => absurd (h.place_unique hw hb) hib,
          fun hw => absurd (h.place_unique hw ha) hia⟩
      · exact Iff.rfl

end Inverse

end QubitAllocation.Arrangement
