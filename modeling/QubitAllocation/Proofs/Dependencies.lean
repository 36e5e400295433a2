import QubitAllocation.Dependency.Table
import QubitAllocation.Proofs.Outcome

/-!
# Valid dependencies and tables of pairs

A dependency is valid for a device if it has one pair, of two distinct qubits of the device
(`Dependency.validate_eq_ok_iff`). The number of qubits of dependencies is the least size of a
device that has all their qubits (`numQubits_eq_some_iff`).

`Dependencies.table` lists the pair of each call point. It answers with a table exactly if every
dependency has one pair (`exists_table`, `isTable_of_table`), and then `IsTable` says what is in it:
the call points of the dependencies, each once, with the pair of a dependency at that call point.
-/

set_option autoImplicit false

namespace QubitAllocation

open Outcome

theorem Dependency.pair_eq_ok_iff {dep : Dependency} {p : Pair} :
    dep.pair = .ok p ↔ dep.pairs = [p] := by
  unfold Dependency.pair
  split
  next q hq =>
    rw [hq, Except.ok.injEq, List.cons.injEq]
    exact ⟨fun h => ⟨h, rfl⟩, fun h => h.1⟩
  next hq =>
    rw [hq]
    exact ⟨fun h => (by cases h), fun h => (by cases h)⟩
  next hone _ =>
    constructor
    · intro h
      cases h
    · intro h
      exact absurd h (hone p)

/-- A dependency passes if it has one pair, of two distinct qubits below the size. -/
theorem Dependency.validate_eq_ok_iff {dep : Dependency} {n : Nat} :
    dep.validate n = .ok () ↔
      ∃ p, dep.pairs = [p] ∧ p.control < n ∧ p.target < n ∧ p.control ≠ p.target := by
  rw [Dependency.validate, bind_eq_ok_iff]
  simp only [Dependency.pair_eq_ok_iff]
  apply exists_congr
  intro p
  apply and_congr_right
  intro _
  split_ifs with h₁ h₂ h₃
  · exact ⟨fun h => (by cases h), fun h => (by omega)⟩
  · exact ⟨fun h => (by cases h), fun h => (by omega)⟩
  · exact ⟨fun h => (by cases h), fun h => absurd h₃ h.2.2⟩
  · exact ⟨fun _ => ⟨by omega, by omega, h₃⟩, fun _ => rfl⟩

/-- What a dependency is refused for. -/
theorem Dependency.error_of_validate {dep : Dependency} {n : Nat} {e : AllocError}
    (h : dep.validate n = .error e) :
    e = .emptyDependency dep.callPoint ∨ (∃ k, e = .multipleDependencies dep.callPoint k) ∨
      (∃ q, e = .qubitOutOfRange q n) ∨ ∃ q, e = .selfDependency dep.callPoint q := by
  rcases bind_eq_error_iff.1 h with hpair | ⟨p, -, hrest⟩
  · unfold Dependency.pair at hpair
    split at hpair
    · cases hpair
    · cases hpair
      exact Or.inl rfl
    · cases hpair
      exact Or.inr (Or.inl ⟨_, rfl⟩)
  · split_ifs at hrest
    · cases hrest
      exact Or.inr (Or.inr (Or.inl ⟨_, rfl⟩))
    · cases hrest
      exact Or.inr (Or.inr (Or.inl ⟨_, rfl⟩))
    · cases hrest
      exact Or.inr (Or.inr (Or.inr ⟨_, rfl⟩))

namespace Dependencies

theorem validate_eq_ok_iff {deps : Dependencies} {n : Nat} :
    deps.validate n = .ok () ↔ ∀ dep ∈ deps,
      ∃ p, dep.pairs = [p] ∧ p.control < n ∧ p.target < n ∧ p.control ≠ p.target := by
  rw [Dependencies.validate]
  simp only [forM_eq_ok_iff, Dependency.validate_eq_ok_iff]

theorem pairs_eq_ok_iff {deps : Dependencies} {ps : List Pair} :
    deps.pairs = .ok ps ↔ List.Forall₂ (fun dep p => dep.pairs = [p]) deps ps := by
  rw [Dependencies.pairs, mapM_eq_ok_iff]
  simp only [Dependency.pair_eq_ok_iff]

/-- Then they are all the pairs that the dependencies have. -/
theorem flatMap_pairs {deps : Dependencies} {ps : List Pair} (h : deps.pairs = .ok ps) :
    deps.flatMap Dependency.pairs = ps := by
  rw [pairs_eq_ok_iff] at h
  induction h with
  | nil => rfl
  | cons hp _ ih => rw [List.flatMap_cons, hp, ih, List.singleton_append]

theorem single_of_validate {deps : Dependencies} {n : Nat} (h : deps.validate n = .ok ()) :
    ∀ dep ∈ deps, ∃ p, dep.pairs = [p] :=
  fun dep hdep => (validate_eq_ok_iff.1 h dep hdep).imp fun _ hp => hp.1

/-- Dependencies with one pair each have a list of pairs. -/
theorem exists_pairs {deps : Dependencies} (h : ∀ dep ∈ deps, ∃ p, dep.pairs = [p]) :
    ∃ ps, deps.pairs = .ok ps :=
  exists_mapM fun dep hdep => (h dep hdep).imp fun _ => Dependency.pair_eq_ok_iff.2

/-- The pair of a valid dependency is of two qubits of the device. -/
theorem bounds_of_mem {deps : Dependencies} {n : Nat} {dep : Dependency} {p : Pair}
    (h : deps.validate n = .ok ()) (hdep : dep ∈ deps) (hp : dep.pairs = [p]) :
    p.control < n ∧ p.target < n ∧ p.control ≠ p.target := by
  obtain ⟨q, hq, hbounds⟩ := validate_eq_ok_iff.1 h dep hdep
  rw [hp] at hq
  cases hq
  exact hbounds

/-- The pairs of valid dependencies are pairs of distinct qubits of the device. -/
theorem bounds_of_validate {deps : Dependencies} {ps : List Pair} {n : Nat}
    (h : deps.validate n = .ok ()) (hps : deps.pairs = .ok ps) :
    ∀ p ∈ ps, p.control < n ∧ p.target < n ∧ p.control ≠ p.target := by
  intro p hp
  obtain ⟨dep, hdep, hdp⟩ := exists_of_forall₂ (pairs_eq_ok_iff.1 hps) hp
  exact bounds_of_mem h hdep hdp

theorem pairs_ne_nil {deps : Dependencies} {ps : List Pair} (hps : deps.pairs = .ok ps)
    (hne : deps ≠ []) : ps ≠ [] := by
  rintro rfl
  exact hne (List.forall₂_nil_right_iff.1 (pairs_eq_ok_iff.1 hps))

/-- Leaving out dependencies leaves out their pairs. -/
theorem pairs_sublist {deps deps' : Dependencies} {ps : List Pair} (hsub : deps'.Sublist deps)
    (h : deps.pairs = .ok ps) : ∃ ps', deps'.pairs = .ok ps' ∧ ps'.Sublist ps := by
  simp only [pairs_eq_ok_iff] at h ⊢
  induction hsub generalizing ps with
  | slnil => exact ⟨[], .nil, List.nil_sublist ps⟩
  | cons dep _ ih =>
    obtain ⟨p, ps, -, hps, rfl⟩ := List.forall₂_cons_left_iff.1 h
    obtain ⟨ps', hps', hsub'⟩ := ih hps
    exact ⟨ps', hps', hsub'.cons p⟩
  | cons_cons dep _ ih =>
    obtain ⟨p, ps, hp, hps, rfl⟩ := List.forall₂_cons_left_iff.1 h
    obtain ⟨ps', hps', hsub'⟩ := ih hps
    exact ⟨p :: ps', .cons hp hps', hsub'.cons_cons p⟩

/-- Only a device with qubits has valid dependencies. -/
theorem pos_of_validate {deps : Dependencies} {n : Nat} (h : deps.validate n = .ok ())
    (hne : deps ≠ []) : 0 < n := by
  obtain ⟨dep, hdep⟩ := List.exists_mem_of_ne_nil deps hne
  obtain ⟨p, -, hp, -⟩ := validate_eq_ok_iff.1 h dep hdep
  exact Nat.zero_lt_of_lt hp

/-- Widening by pairs gives the least size that holds them all, and gives it if 32 bits can. -/
theorem foldlM_widen_eq_some_iff {ps : List Pair} {size n : Nat} (hsize : size ≤ Text.wordMax) :
    ps.foldlM widen size = some n ↔
      n ≤ Text.wordMax ∧
        ∀ m, n ≤ m ↔ size ≤ m ∧ ∀ p ∈ ps, p.control < m ∧ p.target < m := by
  induction ps generalizing size with
  | nil =>
    simp only [List.foldlM_nil, List.not_mem_nil, false_implies, implies_true, and_true]
    constructor
    · intro h
      cases h
      exact ⟨hsize, fun m => Iff.rfl⟩
    · rintro ⟨-, hleast⟩
      have hle : n ≤ size := (hleast size).2 le_rfl
      have hge : size ≤ n := (hleast n).1 le_rfl
      exact congrArg some (Nat.le_antisymm hge hle)
  | cons p ps ih =>
    rw [List.foldlM_cons, widen]
    split_ifs with hlast
    · have hwide : max size (max p.control p.target + 1) ≤ Text.wordMax := by omega
      refine (ih hwide).trans (and_congr_right fun _ => forall_congr' fun m => ?_)
      rw [List.forall_mem_cons, ← and_assoc]
      have hstep : max size (max p.control p.target + 1) ≤ m ↔
          size ≤ m ∧ p.control < m ∧ p.target < m := by
        omega
      rw [hstep]
    · constructor
      · intro h
        cases h
      · rintro ⟨hn, hleast⟩
        have hp := ((hleast Text.wordMax).1 hn).2 p List.mem_cons_self
        omega

/-- The number of qubits is the least size of a device that has every qubit named, and it is missing
if 32 bits do not hold that size. -/
theorem numQubits_eq_some_iff {deps : Dependencies} {n : Nat} :
    deps.numQubits = some n ↔
      n ≤ Text.wordMax ∧
        IsLeast {m | ∀ dep ∈ deps, ∀ p ∈ dep.pairs, p.control < m ∧ p.target < m} n := by
  have hnamed : ∀ m, (∀ p ∈ deps.flatMap Dependency.pairs, p.control < m ∧ p.target < m) ↔
      ∀ dep ∈ deps, ∀ p ∈ dep.pairs, p.control < m ∧ p.target < m := fun m =>
    List.forall_mem_flatMap
  rw [numQubits, foldlM_widen_eq_some_iff (Nat.zero_le _)]
  simp only [Nat.zero_le, true_and, hnamed]
  refine and_congr_right fun _ => ⟨fun h => ⟨(h n).1 le_rfl, fun m hm => (h m).2 hm⟩, ?_⟩
  rintro ⟨hn, hleast⟩ m
  constructor
  · intro hm dep hdep p hp
    exact (hn dep hdep p hp).imp (·.trans_le hm) (·.trans_le hm)
  · intro hm
    exact hleast hm

/-- In a table without repeated keys, looking a key up finds its entry. -/
theorem lookup_eq_some_iff_mem {β : Type} {table : List (Nat × β)}
    (hnd : (table.map Prod.fst).Nodup) {k : Nat} {p : β} :
    table.lookup k = some p ↔ (k, p) ∈ table := by
  induction table with
  | nil => simp
  | cons entry table ih =>
    obtain ⟨k', p'⟩ := entry
    rw [List.map_cons, List.nodup_cons] at hnd
    rw [List.lookup_cons, List.mem_cons, Prod.mk.injEq, ← ih hnd.2]
    by_cases hk : k = k'
    · subst hk
      have hnone : table.lookup k ≠ some p := by
        intro h
        have hmem : (k, p) ∈ table := (ih hnd.2).1 h
        exact hnd.1 (List.mem_map.2 ⟨(k, p), hmem, rfl⟩)
      simp [hnone, eq_comm]
    · simp [hk, beq_eq_false_iff_ne.2 hk]

/-- Taking an entry out of a table takes its key out of the keys. -/
theorem keys_perm_cons_filter {table : List (Nat × Pair)} (hnd : (table.map Prod.fst).Nodup)
    {k : Nat} {p : Pair} (h : (k, p) ∈ table) :
    (table.map Prod.fst).Perm
      (k :: (table.filter fun entry => entry.1 != k).map Prod.fst) := by
  have hkeys : (table.filter fun entry => entry.1 != k).map Prod.fst =
      (table.map Prod.fst).erase k := by
    rw [hnd.erase_eq_filter, List.filter_map]
    rfl
  rw [hkeys]
  exact List.perm_cons_erase (List.mem_map.2 ⟨(k, p), h, rfl⟩)

theorem nodup_keys_filter {table : List (Nat × Pair)} (hnd : (table.map Prod.fst).Nodup)
    (keep : Nat × Pair → Bool) : ((table.filter keep).map Prod.fst).Nodup :=
  (List.filter_sublist.map Prod.fst).nodup hnd

theorem mem_enter_iff {table : List (Nat × Pair)} {k : Nat} {p : Pair} {entry : Nat × Pair} :
    entry ∈ enter table k p ↔ entry ∈ table ∧ entry.1 ≠ k ∨ entry = (k, p) := by
  rw [enter, List.mem_append, List.mem_filter, List.mem_singleton, bne_iff_ne]

theorem nodup_keys_enter {table : List (Nat × Pair)} (hnd : (table.map Prod.fst).Nodup)
    (k : Nat) (p : Pair) : ((enter table k p).map Prod.fst).Nodup := by
  rw [enter, List.map_append, List.nodup_append]
  refine ⟨nodup_keys_filter hnd _, List.nodup_singleton _, ?_⟩
  rintro k₁ h₁ k₂ h₂ rfl
  obtain ⟨entry, hentry, rfl⟩ := List.mem_map.1 h₁
  have hne := (List.mem_filter.1 hentry).2
  simp_all

/-- A table of pairs: no call point twice, the call points of the dependencies and no other, and
each with the pair of a dependency there. -/
structure IsTable (deps : Dependencies) (table : List (Nat × Pair)) : Prop where
  nodup : (table.map Prod.fst).Nodup
  key_iff : ∀ k, k ∈ table.map Prod.fst ↔ k ∈ deps.map Dependency.callPoint
  source : ∀ entry ∈ table, ∃ dep ∈ deps, dep.callPoint = entry.1 ∧ dep.pairs = [entry.2]

/-- A table finds the call points of the dependencies and no other. -/
theorem IsTable.lookup_isSome_iff {deps : Dependencies} {table : List (Nat × Pair)}
    (h : IsTable deps table) {k : Nat} :
    (table.lookup k).isSome = true ↔ k ∈ deps.map Dependency.callPoint := by
  rw [List.lookup_isSome_iff, ← h.key_iff, List.mem_map]
  simp only [beq_iff_eq, @eq_comm _ k]

theorem isTable_enter {deps : Dependencies} {table : List (Nat × Pair)} {dep : Dependency}
    {p : Pair} (h : IsTable deps table) (hp : dep.pairs = [p]) :
    IsTable (deps ++ [dep]) (enter table dep.callPoint p) where
  nodup := nodup_keys_enter h.nodup _ _
  key_iff := by
    intro k
    have hkey := h.key_iff k
    simp only [List.mem_map, mem_enter_iff, List.map_append, List.mem_append, List.map_cons,
      List.map_nil, List.mem_singleton] at hkey ⊢
    constructor
    · rintro ⟨entry, ⟨hmem, -⟩ | rfl, rfl⟩
      · exact Or.inl (hkey.1 ⟨entry, hmem, rfl⟩)
      · exact Or.inr rfl
    · intro hk
      by_cases hdep : k = dep.callPoint
      · exact ⟨_, Or.inr rfl, hdep.symm⟩
      · obtain ⟨entry, hmem, rfl⟩ := hkey.2 (hk.resolve_right hdep)
        exact ⟨entry, Or.inl ⟨hmem, hdep⟩, rfl⟩
  source := by
    intro entry hentry
    rcases mem_enter_iff.1 hentry with ⟨hmem, -⟩ | rfl
    · obtain ⟨dep', hdep', hcall, hpair⟩ := h.source entry hmem
      exact ⟨dep', List.mem_append_left _ hdep', hcall, hpair⟩
    · exact ⟨dep, List.mem_append_right _ (List.mem_singleton.2 rfl), rfl, hp⟩

/-- The loop that enters pairs, started on the table of the dependencies `seen` so far. -/
theorem isTable_of_foldlM {seen deps : Dependencies} {start table : List (Nat × Pair)}
    (hstart : IsTable seen start)
    (h : deps.foldlM
      (fun entries d => do
        let p ← d.pair
        return enter entries d.callPoint p) start = .ok table) :
    IsTable (seen ++ deps) table ∧ ∀ dep ∈ deps, ∃ p, dep.pairs = [p] := by
  induction deps generalizing seen start with
  | nil =>
    rw [foldlM_nil_eq_ok_iff] at h
    rw [List.append_nil, ← h]
    exact ⟨hstart, fun dep hdep => absurd hdep List.not_mem_nil⟩
  | cons dep deps ih =>
    obtain ⟨next, hnext, hrest⟩ := foldlM_cons_eq_ok_iff.1 h
    obtain ⟨p, hp, hnext⟩ := bind_eq_ok_iff.1 hnext
    rw [Dependency.pair_eq_ok_iff] at hp
    rw [pure_eq_ok_iff] at hnext
    subst hnext
    obtain ⟨htable, hsingle⟩ := ih (isTable_enter hstart hp) hrest
    rw [List.append_assoc] at htable
    exact ⟨htable, List.forall_mem_cons.2 ⟨⟨p, hp⟩, hsingle⟩⟩

theorem isTable_of_table {deps : Dependencies} {table : List (Nat × Pair)}
    (h : deps.table = .ok table) :
    IsTable deps table ∧ ∀ dep ∈ deps, ∃ p, dep.pairs = [p] := by
  have hnil : IsTable [] [] :=
    ⟨List.nodup_nil, fun k => Iff.rfl, fun entry hentry => absurd hentry List.not_mem_nil⟩
  exact isTable_of_foldlM hnil h

theorem exists_table {deps : Dependencies} (h : ∀ dep ∈ deps, ∃ p, dep.pairs = [p]) :
    ∃ table, deps.table = .ok table := by
  have key : ∀ start : List (Nat × Pair), ∃ table, deps.foldlM
      (fun entries d => do
        let p ← d.pair
        return enter entries d.callPoint p) start = (Except.ok table : Except AllocError _) := by
    induction deps with
    | nil => exact fun start => ⟨start, rfl⟩
    | cons dep deps ih =>
      intro start
      obtain ⟨p, hp⟩ := h dep List.mem_cons_self
      obtain ⟨table, htable⟩ :=
        ih (fun dep' hdep' => h dep' (List.mem_cons_of_mem dep hdep'))
          (enter start dep.callPoint p)
      refine ⟨table, foldlM_cons_eq_ok_iff.2 ⟨_, ?_, htable⟩⟩
      exact bind_eq_ok_iff.2 ⟨p, Dependency.pair_eq_ok_iff.2 hp, rfl⟩
  exact key []

end Dependencies

end QubitAllocation
