import QubitAllocation.Proofs.Metric
import QubitAllocation.Proofs.Placement
import QubitAllocation.Proofs.Total

/-!
# Weighted placement in words

`weightedWords?` is the weighted placement with the numbers that it really keeps: tables of how
often each pair of qubits occurs, in one direction and in either, the sums of their rows, and for
each choice the sums over the qubits that are already placed. The counts are words of 32 bits and
the weighted hops are words of 64 bits; as soon as a number on the way does not fit its word, there
is no result (`Word.fit?`).

For fewer than `2 ^ 32` dependencies on a device of fewer than `2 ^ 32` qubits all numbers fit. The
sums over placed qubits are sums over the pairs of the dependencies (`total_countP_mul`), so each
count is at most the number of pairs, and the weighted hops are at most that number times the mark
of a pair without a route. Hence the placement in words is the placement in numbers, and it places
every qubit (`find_places_in_words`).
-/

set_option autoImplicit false

namespace QubitAllocation

/-! ## Words -/

namespace Word

variable {α : Type} {width : Nat}

/-- The number, if it fits a word of `width` bits. -/
def fit? (width n : Nat) : Option Nat := if n < 2 ^ width then some n else none

/-- The sum over a list, added up in a word of `width` bits. -/
def sum? (width : Nat) (f : α → Nat) (xs : List α) : Option Nat :=
  xs.foldlM (fun acc x => fit? width (acc + f x)) 0

theorem fit?_of_lt {n : Nat} (h : n < 2 ^ width) : fit? width n = some n := if_pos h

/-- Sums on the way are no larger than the whole sum. -/
theorem sum?_eq {f : α → Nat} {xs : List α} (h : total f xs < 2 ^ width) :
    sum? width f xs = some (total f xs) := by
  have hacc : ∀ acc, acc + total f xs < 2 ^ width →
      xs.foldlM (fun acc x => fit? width (acc + f x)) acc = some (acc + total f xs) := by
    clear h
    induction xs with
    | nil =>
      intro acc _
      simp [total]
    | cons x xs ih =>
      intro acc h
      rw [total] at h ⊢
      rw [List.foldlM_cons, fit?_of_lt (by omega), Option.bind_eq_bind, Option.bind_some,
        ih _ (by omega), Nat.add_assoc]
  simpa [sum?] using hacc 0 (by simpa using h)

end Word

namespace Placement

/-! ## The placement in words -/

/-- How often qubits are paired: by two qubits in either order, and by control and target. -/
structure Tally where
  weight : Nat → Nat → Nat
  directed : Nat → Nat → Nat

/-- Add one to an entry of a table of 32-bit counts. -/
def raise? (table : Nat → Nat → Nat) (a b : Nat) : Option (Nat → Nat → Nat) :=
  (Word.fit? 32 (table a b + 1)).map fun n x y => if x = a ∧ y = b then n else table x y

/-- Count one more pair. -/
def Tally.add? (tally : Tally) (p : Pair) : Option Tally := do
  let once ← raise? tally.weight p.control p.target
  let weight ← raise? once p.target p.control
  let directed ← raise? tally.directed p.control p.target
  return ⟨weight, directed⟩

/-- Count all pairs. -/
def tally? (pairs : List Pair) : Option Tally :=
  pairs.foldlM Tally.add? ⟨fun _ _ => 0, fun _ _ => 0⟩

/-- The sums of the rows of the table of weights. -/
def rowSums? (size : Nat) (tally : Tally) : Option (List Nat) :=
  (List.range size).mapM fun q => Word.sum? 32 (tally.weight q) (List.range size)

/-- The logical qubit to be placed next; the qubits placed so far are added up in the order in
which they were placed. -/
def nextWords? (tally : Tally) (sums : List Nat) (placed : List (Nat × Nat))
    (unplaced : List Nat) : Option (Option Nat) := do
  let urgencies ← unplaced.mapM fun q =>
    (Word.sum? 32 (fun e => tally.weight q e.1) placed.reverse).map fun connected =>
      (⟨q, connected, sums.getD q 0⟩ : Urgency)
  return (firstBest Urgency.beats urgencies).map Urgency.qubit

/-- The weighted hops and the reversals of a site, as far as they are added up. -/
structure Charge where
  hops : Nat
  reversed : Nat

/-- The hops between two qubits, or the mark of a pair without a route. -/
def away (tables : Array (Array (Option Nat))) (u v : Nat) : Nat :=
  (Device.hopsBetween tables u v).getD Device.unreachableHops

/-- Add what the qubit on `site` has to do with a placed qubit. -/
def Charge.add? (d : Device) (tables : Array (Array (Option Nat))) (tally : Tally) (q site : Nat)
    (charge : Charge) (entry : Nat × Nat) : Option Charge := do
  let distance ← Word.fit? 32 (away tables site entry.2)
  let product ← Word.fit? 64 (tally.weight q entry.1 * distance)
  let hops ← Word.fit? 64 (charge.hops + product)
  let along ← if d.isReverseEdge site entry.2 then
      Word.fit? 32 (charge.reversed + tally.directed q entry.1)
    else some charge.reversed
  let reversed ← if d.isReverseEdge entry.2 site then
      Word.fit? 32 (along + tally.directed entry.1 q)
    else some along
  return ⟨hops, reversed⟩

/-- The physical qubit that suits `q` best. -/
def siteWords? (d : Device) (tables : Array (Array (Option Nat))) (tally : Tally)
    (placed : List (Nat × Nat)) (q : Nat) (free : List Nat) : Option (Option Nat) := do
  let offers ← free.mapM fun site =>
    (placed.reverse.foldlM (Charge.add? d tables tally q site) ⟨0, 0⟩).map fun charge =>
      (⟨site, charge.hops, charge.reversed, d.degree site⟩ : Offer)
  return (firstBest Offer.beats offers).map Offer.site

/-- Place up to `count` further qubits. -/
def placeWords? (d : Device) (tables : Array (Array (Option Nat))) (tally : Tally)
    (sums : List Nat) :
    Nat → List (Nat × Nat) → List Nat → List Nat → Option (List (Nat × Nat))
  | 0, placed, _, _ => some placed
  | count + 1, placed, unplaced, free => do
    match ← nextWords? tally sums placed unplaced with
    | none => some placed
    | some q =>
      match ← siteWords? d tables tally placed q free with
      | none => some placed
      | some site =>
        placeWords? d tables tally sums count ((q, site) :: placed) (unplaced.erase q)
          (free.erase site)

/-- The mapping for the pairs of some dependencies. -/
def mappingWords? (d : Device) (pairs : List Pair) : Option (List Nat) := do
  let tally ← tally? pairs
  let sums ← rowSums? d.size tally
  let placed ← placeWords? d d.hopTables tally sums d.size [] (List.range d.size)
    (List.range d.size)
  return (List.range d.size).filterMap fun q => placed.lookup q

/-- The weighted placement, without a result if a number does not fit its word. -/
def weightedWords? (d : Device) (deps : Dependencies) :
    Except AllocError (Option (List Nat)) := do
  deps.validate d.size
  let pairs ← deps.pairs
  return mappingWords? d pairs

/-! ## The counts -/

/-- The counts of some pairs. -/
def Tally.of (pairs : List Pair) : Tally where
  weight a b := pairs.count ⟨a, b⟩ + pairs.count ⟨b, a⟩
  directed a b := pairs.count ⟨a, b⟩

section Counts

variable {pairs : List Pair} {placed : List (Nat × Nat)}

theorem raise?_eq {table : Nat → Nat → Nat} {a b : Nat} (h : table a b + 1 < 2 ^ 32) :
    raise? table a b = some fun x y => table x y + if x = a ∧ y = b then 1 else 0 := by
  rw [raise?, Word.fit?_of_lt h, Option.map_some, Option.some.injEq]
  funext x y
  by_cases hxy : x = a ∧ y = b
  · simp [hxy]
  · simp [hxy]

/-- No pair is both ways round. -/
theorem count_add_count_le {a b : Nat} (hab : a ≠ b) (pairs : List Pair) :
    pairs.count ⟨a, b⟩ + pairs.count ⟨b, a⟩ ≤ pairs.length := by
  induction pairs with
  | nil => simp
  | cons p pairs ih =>
    rw [List.count_cons, List.count_cons, List.length_cons]
    by_cases hp : p = ⟨a, b⟩
    · simp [hp, hab]
      omega
    · simp [hp]
      split_ifs <;> omega

/-- One more pair raises its own counts and no others. -/
theorem Tally.add?_of {p : Pair} (hne : p.control ≠ p.target) (hlen : pairs.length + 1 < 2 ^ 32) :
    (Tally.of pairs).add? p = some (Tally.of (pairs ++ [p])) := by
  obtain ⟨a, b⟩ := p
  dsimp only at hne
  have hle := count_add_count_le hne pairs
  have honce : raise? (Tally.of pairs).weight a b = some _ :=
    raise?_eq (by simp only [Tally.of]; omega)
  have hdirected : raise? (Tally.of pairs).directed a b = some _ :=
    raise?_eq (by simp only [Tally.of]; omega)
  -- the second entry lies across the diagonal from the first, which does not count for it
  have htwice : raise? (fun x y => (Tally.of pairs).weight x y + if x = a ∧ y = b then 1 else 0)
      b a = some _ := raise?_eq (by simp only [Tally.of, hne, and_false, if_false]; omega)
  refine Option.bind_eq_some_iff.2 ⟨_, honce, Option.bind_eq_some_iff.2 ⟨_, htwice, ?_⟩⟩
  refine Option.bind_eq_some_iff.2 ⟨_, hdirected, ?_⟩
  simp only [Tally.of, List.count_append, List.count_singleton, beq_iff_eq, Pair.mk.injEq,
    Option.pure_def, Option.some.injEq, Tally.mk.injEq]
  constructor
  · funext x y
    simp only [@eq_comm _ a, @eq_comm _ b, and_comm]
    omega
  · funext x y
    simp only [@eq_comm _ a, @eq_comm _ b]

theorem tally?_eq (hne : ∀ p ∈ pairs, p.control ≠ p.target) (hlen : pairs.length < 2 ^ 32) :
    tally? pairs = some (Tally.of pairs) := by
  have hrest : ∀ rest done : List Pair, (∀ p ∈ rest, p.control ≠ p.target) →
      (done ++ rest).length < 2 ^ 32 →
      rest.foldlM Tally.add? (Tally.of done) = some (Tally.of (done ++ rest)) := by
    intro rest
    induction rest with
    | nil =>
      intro done _ _
      simp
    | cons p rest ih =>
      intro done hne hlen
      rw [List.forall_mem_cons] at hne
      have hstep : (Tally.of done).add? p = some (Tally.of (done ++ [p])) := by
        apply Tally.add?_of hne.1
        simp only [List.length_append, List.length_cons] at hlen
        omega
      have hnext := ih (done ++ [p]) hne.2 (by simpa using hlen)
      rw [List.append_assoc, List.singleton_append] at hnext
      rw [List.foldlM_cons, hstep]
      exact hnext
  exact hrest pairs [] hne hlen

/-- The weight of two qubits counts the pairs of the one with the other. -/
theorem weight_of (hne : ∀ p ∈ pairs, p.control ≠ p.target) (q l : Nat) :
    (Tally.of pairs).weight q l = pairs.countP fun p => partner? q p == some l := by
  induction pairs with
  | nil => rfl
  | cons p pairs ih =>
    rw [List.forall_mem_cons] at hne
    have hrest := ih hne.2
    have hpair : (if p == ⟨q, l⟩ then 1 else 0) + (if p == ⟨l, q⟩ then 1 else 0) =
        if partner? q p == some l then 1 else 0 := by
      obtain ⟨a, b⟩ := p
      simp only [beq_iff_eq, Pair.mk.injEq, partner?]
      by_cases ha : a = q
      · have hb : b ≠ q := fun h => hne.1 (ha.trans h.symm)
        simp [ha, hb]
      · by_cases hb : b = q
        · simp [ha, hb]
        · simp [ha, hb]
    simp only [Tally.of] at hrest ⊢
    rw [List.count_cons, List.count_cons, List.countP_cons, ← hrest, ← hpair]
    omega

end Counts

/-! ## The sums

Each sum over placed qubits is a sum over the pairs of the dependencies, in which a pair counts for
the place of its other qubit. -/

section Sums

variable {d : Device} {tables : Array (Array (Option Nat))} {pairs : List Pair}
  {placed : List (Nat × Nat)}

theorem total_weight (hne : ∀ p ∈ pairs, p.control ≠ p.target)
    (hnd : (placed.map Prod.fst).Nodup) (q : Nat) :
    total (fun e => (Tally.of pairs).weight q e.1) placed = connections pairs placed q := by
  have hweight : ∀ e ∈ placed, (Tally.of pairs).weight q e.1 =
      (pairs.countP fun p => partner? q p == some e.1) * 1 := by
    intro e _
    rw [weight_of hne, Nat.mul_one]
  rw [total_congr hweight, total_countP_mul hnd (partner? q) fun _ => 1, connections,
    ← total_eq_countP]
  apply total_congr
  intro p _
  cases partner? q p with
  | none => rfl
  | some l => cases hl : placed.lookup l <;> simp [hl]

/-- The row of a qubit adds up to the number of its pairs. -/
theorem total_row {n : Nat} (hpairs : ∀ p ∈ pairs, p.control < n ∧ p.target < n ∧
    p.control ≠ p.target) (q : Nat) :
    total ((Tally.of pairs).weight q) (List.range n) = interactions pairs q := by
  -- as if every qubit were placed
  have hkeys : ((List.range n).map fun l => (l, l)).map Prod.fst = List.range n := by
    simp [Function.comp_def]
  have hnd : (((List.range n).map fun l => (l, l)).map Prod.fst).Nodup := by
    rw [hkeys]
    exact List.nodup_range
  have hsum := total_weight (fun p hp => (hpairs p hp).2.2) hnd q
  rw [total_map] at hsum
  rw [hsum, connections, interactions]
  apply List.countP_congr
  intro p hp
  obtain ⟨hcontrol, htarget, -⟩ := hpairs p hp
  cases hpartner : partner? q p with
  | none => simp
  | some l =>
    have hl : l < n := by
      unfold partner? at hpartner
      split_ifs at hpartner <;> cases hpartner <;> assumption
    have hlookup : ((List.range n).map fun l => (l, l)).lookup l = some l := by
      rw [Dependencies.lookup_eq_some_iff_mem hnd]
      simpa using hl
    simp [hlookup]

theorem total_hops (hne : ∀ p ∈ pairs, p.control ≠ p.target)
    (hnd : (placed.map Prod.fst).Nodup) (q site : Nat) :
    total (fun e => (Tally.of pairs).weight q e.1 * away tables site e.2) placed =
      span tables placed q site pairs := by
  simp only [weight_of hne]
  rw [total_countP_mul hnd (partner? q) (away tables site), span]
  apply total_congr
  intro p _
  cases (partner? q p).bind fun l => placed.lookup l <;> rfl

/-- The reversals that a placed qubit brings to a site. -/
def against (d : Device) (tally : Tally) (q site : Nat) (entry : Nat × Nat) : Nat :=
  (if d.isReverseEdge site entry.2 then tally.directed q entry.1 else 0) +
    if d.isReverseEdge entry.2 site then tally.directed entry.1 q else 0

/-- The target of a pair with control `q`. -/
def target? (q : Nat) (p : Pair) : Option Nat := if p.control = q then some p.target else none

/-- The control of a pair with target `q`. -/
def control? (q : Nat) (p : Pair) : Option Nat := if p.target = q then some p.control else none

theorem count_eq_target (pairs : List Pair) (q l : Nat) :
    pairs.count ⟨q, l⟩ = pairs.countP fun p => target? q p == some l := by
  apply List.countP_congr
  rintro ⟨a, b⟩ -
  by_cases ha : a = q <;> simp [target?, ha]

theorem count_eq_control (pairs : List Pair) (q l : Nat) :
    pairs.count ⟨l, q⟩ = pairs.countP fun p => control? q p == some l := by
  apply List.countP_congr
  rintro ⟨a, b⟩ -
  by_cases hb : b = q <;> simp [control?, hb]

theorem total_against (hne : ∀ p ∈ pairs, p.control ≠ p.target)
    (hnd : (placed.map Prod.fst).Nodup) (q site : Nat) :
    total (against d (Tally.of pairs) q site) placed = reversals d placed q site pairs := by
  have hsplit : ∀ e ∈ placed, against d (Tally.of pairs) q site e =
      (pairs.countP fun p => target? q p == some e.1) *
        (if d.isReverseEdge site e.2 then 1 else 0) +
      (pairs.countP fun p => control? q p == some e.1) *
        if d.isReverseEdge e.2 site then 1 else 0 := by
    intro e _
    rw [against, ← count_eq_target, ← count_eq_control]
    simp [Tally.of]
  rw [total_congr hsplit, total_add,
    total_countP_mul hnd (target? q) fun place => if d.isReverseEdge site place then 1 else 0,
    total_countP_mul hnd (control? q) fun place => if d.isReverseEdge place site then 1 else 0,
    ← total_add, reversals, ← total_eq_countP]
  -- pair by pair: `q` is at one end at most
  apply total_congr
  intro p hp
  have hpne := hne p hp
  by_cases hcontrol : p.control = q
  · have htarget : p.target ≠ q := fun h => hpne (hcontrol.trans h.symm)
    cases hlookup : placed.lookup p.target <;>
      simp [target?, control?, hcontrol, htarget, hlookup]
  · by_cases htarget : p.target = q
    · cases hlookup : placed.lookup p.control <;>
        simp [target?, control?, hcontrol, htarget, hlookup]
    · simp [target?, control?, hcontrol, htarget]

/-- Only the pairs of the qubit itself count. -/
theorem span_own (q site : Nat) :
    span tables placed q site (pairs.filter fun p => (partner? q p).isSome) =
      span tables placed q site pairs := by
  apply total_filter
  intro p hp
  have hnone : partner? q p = none := by simpa using hp
  simp [hnone]

theorem reversals_own (q site : Nat) :
    reversals d placed q site (pairs.filter fun p => (partner? q p).isSome) =
      reversals d placed q site pairs := by
  rw [reversals, reversals, List.countP_filter]
  apply List.countP_congr
  intro p _
  by_cases hcontrol : p.control = q
  · simp [partner?, hcontrol]
  · by_cases htarget : p.target = q
    · simp [partner?, hcontrol, htarget]
    · simp [hcontrol, htarget]

/-- The weighted hops fit a word of twice the size, even where every pair is without a route. -/
theorem span_lt (q site : Nat) (hlen : pairs.length < 2 ^ 32)
    (haway : ∀ u v, away tables u v < 2 ^ 32) : span tables placed q site pairs < 2 ^ 64 := by
  have hle : span tables placed q site pairs ≤ pairs.length * (2 ^ 32 - 1) := by
    apply total_le
    intro p _
    cases (partner? q p).bind fun l => placed.lookup l with
    | none => exact Nat.zero_le _
    | some place => exact Nat.le_sub_one_of_lt (haway site place)
  have hprod : pairs.length * (2 ^ 32 - 1) ≤ (2 ^ 32 - 1) * (2 ^ 32 - 1) :=
    Nat.mul_le_mul_right _ (by omega)
  omega

end Sums

/-! ## The choices -/

section Choices

open Outcome

variable {d : Device} {tables : Array (Array (Option Nat))} {pairs : List Pair}
  {placed : List (Nat × Nat)} {tally : Tally} {q site : Nat}

/-- What a placed qubit adds to a site, if it fits. -/
theorem Charge.add?_eq {charge : Charge} {entry : Nat × Nat}
    (haway : away tables site entry.2 < 2 ^ 32)
    (hhops : charge.hops + tally.weight q entry.1 * away tables site entry.2 < 2 ^ 64)
    (hreversed : charge.reversed + against d tally q site entry < 2 ^ 32) :
    charge.add? d tables tally q site entry =
      some ⟨charge.hops + tally.weight q entry.1 * away tables site entry.2,
        charge.reversed + against d tally q site entry⟩ := by
  simp only [Charge.add?, Word.fit?_of_lt haway, Option.bind_eq_bind, Option.bind_some]
  rw [Word.fit?_of_lt (by omega), Option.bind_some, Word.fit?_of_lt hhops, Option.bind_some]
  -- the edge between the two sites runs one way at most, but the loop tests both
  unfold against at hreversed ⊢
  split_ifs at hreversed ⊢ with hout hin hin
  · rw [Word.fit?_of_lt (by omega), Option.bind_some, Word.fit?_of_lt (by omega)]
    simp [Nat.add_assoc]
  · rw [Word.fit?_of_lt (by omega)]
    simp
  · rw [Word.fit?_of_lt (by omega)]
    simp
  · simp

theorem foldlM_charge {entries : List (Nat × Nat)} (haway : ∀ u v, away tables u v < 2 ^ 32)
    {charge : Charge}
    (hhops : charge.hops +
      total (fun e => tally.weight q e.1 * away tables site e.2) entries < 2 ^ 64)
    (hreversed : charge.reversed + total (against d tally q site) entries < 2 ^ 32) :
    entries.foldlM (Charge.add? d tables tally q site) charge =
      some ⟨charge.hops + total (fun e => tally.weight q e.1 * away tables site e.2) entries,
        charge.reversed + total (against d tally q site) entries⟩ := by
  induction entries generalizing charge with
  | nil => rfl
  | cons entry entries ih =>
    rw [total] at hhops hreversed ⊢
    rw [total]
    have hstep : charge.add? d tables tally q site entry = some _ :=
      Charge.add?_eq (haway site entry.2) (by omega) (by omega)
    rw [List.foldlM_cons, hstep, Option.bind_eq_bind, Option.bind_some, ih]
    · simp only [Nat.add_assoc]
    · rw [Nat.add_assoc]
      exact hhops
    · rw [Nat.add_assoc]
      exact hreversed

section Fitting

variable (hne : ∀ p ∈ pairs, p.control ≠ p.target) (hlen : pairs.length < 2 ^ 32)
  (hnd : (placed.map Prod.fst).Nodup)
include hne hlen hnd

theorem nextWords?_eq {sums unplaced : List Nat}
    (hsums : ∀ q ∈ unplaced, sums.getD q 0 = interactions pairs q) :
    nextWords? (Tally.of pairs) sums placed unplaced =
      some (nextQubit? pairs placed unplaced) := by
  have hall : ∀ q ∈ unplaced,
      ((Word.sum? 32 (fun e => (Tally.of pairs).weight q e.1) placed.reverse).map fun connected =>
        (⟨q, connected, sums.getD q 0⟩ : Urgency)) =
      some ⟨q, connections pairs placed q, interactions pairs q⟩ := by
    intro q hq
    have hsum : total (fun e => (Tally.of pairs).weight q e.1) placed.reverse =
        connections pairs placed q := by
      rw [total_perm (List.reverse_perm placed), total_weight hne hnd]
    have hle : connections pairs placed q ≤ pairs.length := List.countP_le_length
    rw [Word.sum?_eq (by omega), hsum, hsums q hq]
    rfl
  rw [nextWords?, mapM_eq_some_map hall]
  rfl

theorem siteWords?_eq {free : List Nat} (haway : ∀ u v, away tables u v < 2 ^ 32) :
    siteWords? d tables (Tally.of pairs) placed q free =
      some (bestSite? d tables pairs placed q free) := by
  have hall : ∀ site ∈ free,
      ((placed.reverse.foldlM (Charge.add? d tables (Tally.of pairs) q site) ⟨0, 0⟩).map
        fun charge => (⟨site, charge.hops, charge.reversed, d.degree site⟩ : Offer)) =
      some ⟨site, span tables placed q site (pairs.filter fun p => (partner? q p).isSome),
        reversals d placed q site (pairs.filter fun p => (partner? q p).isSome),
        d.degree site⟩ := by
    intro site _
    rw [span_own, reversals_own]
    have hhops : total (fun e => (Tally.of pairs).weight q e.1 * away tables site e.2)
        placed.reverse = span tables placed q site pairs := by
      rw [total_perm (List.reverse_perm placed), total_hops hne hnd]
    have hagainst : total (against d (Tally.of pairs) q site) placed.reverse =
        reversals d placed q site pairs := by
      rw [total_perm (List.reverse_perm placed), total_against hne hnd]
    have hspan : span tables placed q site pairs < 2 ^ 64 := span_lt q site hlen haway
    have hle : reversals d placed q site pairs ≤ pairs.length := List.countP_le_length
    rw [foldlM_charge haway, hhops, hagainst]
    · simp
    · rw [hhops]
      simpa using hspan
    · rw [hagainst]
      show 0 + _ < _
      omega
  rw [siteWords?, mapM_eq_some_map hall]
  rfl

end Fitting

/-- **The placement in words is the placement in numbers**: no qubit is placed twice, so in every
round both choices are made from the same sums. -/
theorem placeWords?_eq (hne : ∀ p ∈ pairs, p.control ≠ p.target) (hlen : pairs.length < 2 ^ 32)
    (haway : ∀ u v, away tables u v < 2 ^ 32) {sums : List Nat} {count : Nat}
    {unplaced free : List Nat} (hnd : (placed.map Prod.fst ++ unplaced).Nodup)
    (hsums : ∀ q ∈ unplaced, sums.getD q 0 = interactions pairs q) :
    placeWords? d tables (Tally.of pairs) sums count placed unplaced free =
      some (placeAll d tables pairs count placed unplaced free) := by
  induction count generalizing placed unplaced free with
  | zero => rfl
  | succ count ih =>
    have hkeys : (placed.map Prod.fst).Nodup := (List.nodup_append.1 hnd).1
    rw [placeWords?, placeAll, nextWords?_eq hne hlen hkeys hsums, Option.bind_eq_bind,
      Option.bind_some]
    cases hnext : nextQubit? pairs placed unplaced with
    | none => rfl
    | some q =>
      dsimp only
      rw [siteWords?_eq hne hlen hkeys haway, Option.bind_some]
      cases bestSite? d tables pairs placed q free with
      | none => rfl
      | some site =>
        apply ih
        · -- the qubit moves from those not placed to those placed
          exact (move_perm (mem_of_nextQubit hnext)).nodup_iff.2 hnd
        · intro q' hq'
          exact hsums q' (List.mem_of_mem_erase hq')

theorem rowSums?_eq {n : Nat} (hpairs : ∀ p ∈ pairs, p.control < n ∧ p.target < n ∧
    p.control ≠ p.target) (hlen : pairs.length < 2 ^ 32) :
    rowSums? n (Tally.of pairs) = some ((List.range n).map (interactions pairs)) := by
  apply mapM_eq_some_map
  intro q _
  have hle : interactions pairs q ≤ pairs.length := List.countP_le_length
  have hsum := total_row hpairs q
  rw [Word.sum?_eq (by omega), hsum]

theorem mappingWords?_eq (hpairs : ∀ p ∈ pairs, p.control < d.size ∧ p.target < d.size ∧
    p.control ≠ p.target) (hlen : pairs.length < 2 ^ 32) (hsize : d.size < 2 ^ 32) :
    mappingWords? d pairs = some ((List.range d.size).filterMap fun q =>
      (placeAll d d.hopTables pairs d.size [] (List.range d.size)
        (List.range d.size)).lookup q) := by
  have hne : ∀ p ∈ pairs, p.control ≠ p.target := fun p hp => (hpairs p hp).2.2
  have hsums : ∀ q ∈ List.range d.size,
      ((List.range d.size).map (interactions pairs)).getD q 0 = interactions pairs q := by
    intro q hq
    simp [List.mem_range.1 hq]
  have hplaced : placeWords? d d.hopTables (Tally.of pairs)
      ((List.range d.size).map (interactions pairs)) d.size [] (List.range d.size)
      (List.range d.size) = some _ :=
    placeWords?_eq hne hlen (Device.getD_hopsBetween_lt hsize) List.nodup_range hsums
  rw [mappingWords?, tally?_eq hne hlen, Option.bind_eq_bind, Option.bind_some,
    rowSums?_eq hpairs hlen, Option.bind_eq_bind, Option.bind_some, hplaced]
  rfl

end Choices

/-! ## The whole placement -/

open Arrangement Outcome

/-- **Every placement places all qubits, and no number on the way overflows its word.** For fewer
than `2 ^ 32` valid dependencies on any device, connected or not, the placement answers with an
arrangement; and the weighted placement, with its counts in 32 bits and its weighted hops in 64
bits, answers with that same arrangement. -/
theorem find_places_in_words (placement : Placement) {d : Device} {deps : Dependencies}
    (hsize : d.size < 2 ^ 32) (hcount : deps.length < 2 ^ 32)
    (hvalid : deps.validate d.size = .ok ()) :
    ∃ M, placement.find d deps = .ok M ∧ IsArrangement d.size M ∧
      (placement = .weighted → weightedWords? d deps = .ok (some M)) := by
  obtain ⟨M, hfind, hM⟩ := exists_find placement d hvalid
  refine ⟨M, hfind, hM, ?_⟩
  rintro rfl
  obtain ⟨pairs, hpairs⟩ := Dependencies.exists_pairs (Dependencies.single_of_validate hvalid)
  obtain rfl := Except.ok.inj (hfind.symm.trans (weightedMapping_eq hvalid hpairs))
  have hbounds := Dependencies.bounds_of_validate hvalid hpairs
  have hlen : pairs.length < 2 ^ 32 := by
    rw [← (Dependencies.pairs_eq_ok_iff.1 hpairs).length_eq]
    exact hcount
  rw [weightedWords?, bind_of_eq_ok hvalid, bind_of_eq_ok hpairs,
    mappingWords?_eq hbounds hlen hsize]
  rfl

/-- Two pairs of qubits that no route joins. One logical qubit has pairs with all the others, so two
of them are placed at the marked distance from it; the sums still fit. -/
theorem find_places_in_words_apart :
    let d := Device.ofNodup 4 [(0, 1), (3, 2)] (by decide) (by decide)
    let deps : Dependencies := [⟨0, [⟨0, 1⟩]⟩, ⟨1, [⟨2, 1⟩]⟩, ⟨2, [⟨1, 2⟩]⟩, ⟨3, [⟨3, 1⟩]⟩]
    d.size < 2 ^ 32 ∧ deps.length < 2 ^ 32 ∧ deps.validate d.size = .ok () ∧
      d.distanceMatrix[2]? = some [2 ^ 32 - 1, 2 ^ 32 - 1, 0, 1] ∧
      weighted.find d deps = .ok [2, 0, 1, 3] ∧ IsArrangement d.size [2, 0, 1, 3] ∧
      weightedWords? d deps = .ok (some [2, 0, 1, 3]) := by
  intro d deps
  have hsize : d.size < 2 ^ 32 := by decide
  have hcount : deps.length < 2 ^ 32 := by decide
  have hvalid : deps.validate d.size = .ok () := rfl
  have hmarks : d.distanceMatrix[2]? = some [2 ^ 32 - 1, 2 ^ 32 - 1, 0, 1] := by decide +kernel
  have hfind : weighted.find d deps = .ok [2, 0, 1, 3] := by decide +kernel
  obtain ⟨M, hM, harrangement, hwords⟩ := find_places_in_words .weighted hsize hcount hvalid
  obtain rfl : [2, 0, 1, 3] = M := Except.ok.inj (hfind.symm.trans hM)
  exact ⟨hsize, hcount, hvalid, hmarks, hfind, harrangement, hwords rfl⟩

end Placement

end QubitAllocation
