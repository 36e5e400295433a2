import QubitAllocation.Proofs.Itinerary
import QubitAllocation.Search

/-!
# What a search with a queue finds

A search finds states along itineraries. At every moment the itineraries of the states found so far
stand in the order of `Itinerary.Sooner`, and each is the soonest to its state among those that were
tried (`Search.Explored`). The next itinerary to be tried is later than all of them, and every
sooner one leads to a state that has been found (`Search.Explored.exists_of_sooner`). So a search
for a goal stops with the soonest itinerary to a goal, and only a goal out of reach is not found
(`Search.run_cases`).

A search without a goal finds every state in reach. Its arrays have the least number of steps to
each, and lead back from each along an itinerary of that length (`Search.Surveys`). Where the states
are numbered below the size of the arrays, no state is ever looked up beyond their end
(`Search.exists_run`).
-/

set_option autoImplicit false

namespace QubitAllocation.Search

open Itinerary

variable {α : Type} {size : Nat} {index : α → Nat} {next : α → List α} {dom : α → Prop}
  {goal : α → Bool} {root x y : α} {i j : Nat} {k m cur : List Nat} {tried tried' : List Nat → Prop}
  {order done pending : List (List Nat)} {depths : Array (Option Nat)}
  {origins : Array (Option (Nat × Nat))} {p : Progress α}

theorem dom_of_follow (num : Numbering size index next dom) {root x : α} {k : List Nat}
    (hroot : dom root) (h : follow next root k = some x) : dom x :=
  (walk_of_follow h).dom_of_dom num hroot

/-! ## What has been found -/

/-- The itineraries `order` are those along which states were found, in the order of the search,
after the itineraries that satisfy `tried` were tried. -/
structure Explored (size : Nat) (index : α → Nat) (next : α → List α) (dom : α → Prop) (root : α)
    (tried : List Nat → Prop) (order : List (List Nat)) (depths : Array (Option Nat))
    (origins : Array (Option (Nat × Nat))) : Prop where
  size_depths : depths.size = size
  size_origins : origins.size = size
  -- each state is found once, and sooner itineraries come first
  sorted : order.Pairwise Sooner
  leads : ∀ k ∈ order, ∃ x, follow next root k = some x
  apart : (order.map fun k => (follow next root k).map index).Nodup
  depth_iff : ∀ {x}, dom x → ∀ n, depths[index x]? = some (some n) ↔
    ∃ k ∈ order, follow next root k = some x ∧ k.length = n
  root_mem : [] ∈ order
  -- an itinerary is noted by the state that stands before its end, and its last number
  origin_root : origins[index root]? = some none
  origin_step : ∀ k i, k ++ [i] ∈ order → k ∈ order ∧ ∀ x y, follow next root k = some x →
    (next x)[i]? = some y → origins[index y]? = some (some (index x, i))
  -- what was tried bounds `order` from both sides: nothing else is in it, and nothing tried beats it
  tried_of_mem : ∀ k ∈ order, k = [] ∨ tried k
  covered : ∀ k x, tried k → follow next root k = some x →
    ∃ m ∈ order, follow next root m = some x ∧ ¬ Sooner k m

namespace Explored

/-- Itineraries that lead nowhere make no difference. -/
theorem retry (h : Explored size index next dom root tried order depths origins)
    (hto : ∀ m, tried m → tried' m)
    (hfrom : ∀ m x, tried' m → follow next root m = some x → tried m) :
    Explored size index next dom root tried' order depths origins where
  __ := h
  tried_of_mem := fun k hk => (h.tried_of_mem k hk).imp_right (hto k)
  covered := fun k x hk hx => h.covered k x (hfrom k x hk hx) hx

/-- To try a later itinerary to a state that has been found changes nothing. -/
theorem skip (h : Explored size index next dom root tried order depths origins) {n : Nat}
    (hdom : dom x) (hx : follow next root k = some x) (hfound : depths[index x]? = some (some n))
    (hlate : ∀ m ∈ order, Sooner m k) :
    Explored size index next dom root (fun m => tried m ∨ m = k) order depths origins where
  __ := h
  tried_of_mem := fun m hm => (h.tried_of_mem m hm).imp_right Or.inl
  covered := by
    rintro m y (hm | rfl) hy
    · exact h.covered m y hm hy
    · cases hx.symm.trans hy
      obtain ⟨k', hk', hlead, -⟩ := (h.depth_iff hdom n).1 hfound
      exact ⟨k', hk', hlead, (hlate k' hk').asymm⟩

/-- No itinerary leads to a state whose cell is open. -/
theorem not_follow_of_open (h : Explored size index next dom root tried order depths origins)
    (hdom : dom y) (hopen : depths[index y]? = some none) :
    ∀ m ∈ order, follow next root m ≠ some y := by
  intro m hm hy
  have hcell := (h.depth_iff hdom m.length).2 ⟨m, hm, hy, rfl⟩
  rw [hopen] at hcell
  cases hcell

/-- A later itinerary to a new state is the soonest to it that was tried. -/
theorem record (h : Explored size index next dom root tried order depths origins)
    (num : Numbering size index next dom) (hroot : dom root) (hk : k ∈ order)
    (hx : follow next root k = some x) (hy : (next x)[i]? = some y)
    (hopen : depths[index y]? = some none) (hlate : ∀ m ∈ order, Sooner m (k ++ [i])) :
    Explored size index next dom root (fun m => tried m ∨ m = k ++ [i]) (order ++ [k ++ [i]])
      (depths.setIfInBounds (index y) (some (k.length + 1)))
      (origins.setIfInBounds (index y) (some (index x, i))) := by
  have hky : follow next root (k ++ [i]) = some y :=
    follow_append_step_eq_some_iff.2 ⟨x, hx, hy⟩
  have hdom : dom y := dom_of_follow num hroot hky
  have hlt : index y < size := num.index_lt hdom
  have hnone := h.not_follow_of_open hdom hopen
  -- a state with the index of `y` is `y`, and it was not found before
  have hnew : ∀ m ∈ order, ∀ z, follow next root m = some z → index y ≠ index z := by
    intro m hm z hz heq
    obtain rfl := num.index_inj hdom (dom_of_follow num hroot hz) heq
    exact hnone m hm hz
  constructor
  case size_depths =>
    rw [Array.size_setIfInBounds, h.size_depths]
  case size_origins =>
    rw [Array.size_setIfInBounds, h.size_origins]
  case sorted =>
    rw [List.pairwise_append]
    refine ⟨h.sorted, List.pairwise_singleton _ _, fun m hm n hn => ?_⟩
    rw [List.mem_singleton.1 hn]
    exact hlate m hm
  case leads =>
    intro m hm
    rcases List.mem_append.1 hm with hm | hm
    · exact h.leads m hm
    · rw [List.mem_singleton.1 hm]
      exact ⟨y, hky⟩
  case apart =>
    rw [List.map_append, List.map_singleton, hky, ← List.concat_eq_append]
    refine h.apart.concat ?_
    rw [List.mem_map]
    rintro ⟨m, hm, heq⟩
    obtain ⟨z, hz⟩ := h.leads m hm
    rw [hz] at heq
    exact hnew m hm z hz (Option.some.inj heq).symm
  case depth_iff =>
    intro z hz n
    simp only [List.mem_append, List.mem_singleton, or_and_right, exists_or, exists_eq_left, hky]
    rw [← h.depth_iff hz n, Array.getElem?_setIfInBounds]
    by_cases hzy : index y = index z
    · obtain rfl := num.index_inj hdom hz hzy
      rw [if_pos rfl, if_pos (h.size_depths ▸ hlt), hopen]
      simp
    · have hne : y ≠ z := fun heq => hzy (congrArg index heq)
      rw [if_neg hzy]
      simp [hne]
  case root_mem =>
    exact List.mem_append_left _ h.root_mem
  case origin_root =>
    rw [Array.getElem?_setIfInBounds_ne (hnew [] h.root_mem root rfl), h.origin_root]
  case origin_step =>
    intro m l hml
    rcases List.mem_append.1 hml with hml | hml
    · obtain ⟨hm, hstep⟩ := h.origin_step m l hml
      refine ⟨List.mem_append_left _ hm, fun w z hw hz => ?_⟩
      -- the note for `z` stays, since `z` had been found before
      have hzy := hnew _ hml z (follow_append_step_eq_some_iff.2 ⟨w, hw, hz⟩)
      rw [Array.getElem?_setIfInBounds_ne hzy, hstep w z hw hz]
    · obtain ⟨rfl, hli⟩ := List.append_inj' (List.mem_singleton.1 hml) rfl
      cases hli
      refine ⟨List.mem_append_left _ hk, fun w z hw hz => ?_⟩
      cases hx.symm.trans hw
      cases hy.symm.trans hz
      rw [Array.getElem?_setIfInBounds_self, if_pos (h.size_origins ▸ hlt)]
  case tried_of_mem =>
    intro m hm
    rcases List.mem_append.1 hm with hm | hm
    · exact (h.tried_of_mem m hm).imp_right Or.inl
    · exact Or.inr (Or.inr (List.mem_singleton.1 hm))
  case covered =>
    rintro m z (hm | rfl) hz
    · obtain ⟨m', hm', hlead⟩ := h.covered m z hm hz
      exact ⟨m', List.mem_append_left _ hm', hlead⟩
    · exact ⟨_, List.mem_append_right _ (List.mem_singleton_self _), hz, not_sooner_self _⟩

/-- There are no more itineraries than there are cells. -/
theorem length_le (h : Explored size index next dom root tried order depths origins)
    (num : Numbering size index next dom) (hroot : dom root) : order.length ≤ size := by
  have hsub : (order.map fun k => (follow next root k).map index) ⊆ (List.range size).map some := by
    intro cell hcell
    obtain ⟨k, hk, rfl⟩ := List.mem_map.1 hcell
    obtain ⟨x, hx⟩ := h.leads k hk
    rw [hx]
    exact List.mem_map_of_mem (List.mem_range.2 (num.index_lt (dom_of_follow num hroot hx)))
  simpa using (h.apart.subperm hsub).length_le

/-- The notes lead back along the itinerary on which a state was found. -/
theorem retrace_eq (h : Explored size index next dom root tried order depths origins) {fuel : Nat}
    (hk : k ∈ order) (hx : follow next root k = some x) (hfuel : k.length ≤ fuel) :
    (retrace origins fuel (index x)).map Prod.snd = k ∧
      (retrace origins fuel (index x)).map Prod.fst ++ [index x] =
        (stops next root k).map index := by
  induction k using List.reverseRecOn generalizing x fuel with
  | nil =>
    cases hx
    cases fuel with
    | zero => exact ⟨rfl, rfl⟩
    | succ fuel => simp [retrace, h.origin_root, stops]
  | append_singleton k i ih =>
    obtain ⟨y, hy, hyx⟩ := follow_append_step_eq_some_iff.1 hx
    obtain ⟨hk', hstep⟩ := h.origin_step k i hk
    rw [List.length_append, List.length_singleton] at hfuel
    obtain ⟨fuel, rfl⟩ := Nat.exists_eq_add_of_le' (Nat.le_of_add_left_le hfuel)
    obtain ⟨hplaces, hstops⟩ := ih hk' hy (Nat.le_of_succ_le_succ hfuel)
    have hback : retrace origins (fuel + 1) (index x) =
        retrace origins fuel (index y) ++ [(index y, i)] := by
      rw [retrace, hstep y x hy hyx]
      rfl
    rw [hback]
    constructor
    · rw [List.map_append, hplaces, List.map_singleton]
    · rw [stops_append_step hx, List.map_append, List.map_append, ← hstops, List.map_singleton,
        List.map_singleton]

end Explored

/-! ## What has been tried -/

/-- The itinerary goes one step on from one of those that are done. -/
def Tried (done : List (List Nat)) (m : List Nat) : Prop := ∃ k ∈ done, ∃ i, m = k ++ [i]

/-- Besides these, the first `j` steps on from the current itinerary were tried. -/
def TriedUpTo (done : List (List Nat)) (cur : List Nat) (j : Nat) (m : List Nat) : Prop :=
  Tried done m ∨ ∃ i < j, m = cur ++ [i]

theorem triedUpTo_zero_iff : TriedUpTo done cur 0 m ↔ Tried done m := by
  simp [TriedUpTo]

theorem triedUpTo_succ_iff :
    TriedUpTo done cur (j + 1) m ↔ TriedUpTo done cur j m ∨ m = cur ++ [j] := by
  simp only [TriedUpTo, Nat.lt_succ_iff_lt_or_eq, or_and_right, exists_or, exists_eq_left, or_assoc]

namespace Explored

theorem tried_next (h : Explored size index next dom root
      (fun m => TriedUpTo done cur j m ∨ m = cur ++ [j]) order depths origins) :
    Explored size index next dom root (TriedUpTo done cur (j + 1)) order depths origins :=
  h.retry (fun _ => triedUpTo_succ_iff.2) fun _ _ hm _ => triedUpTo_succ_iff.1 hm

/-- A step on leads somewhere at a place in the list of successors only, so past its end all steps
on from the current itinerary were tried. -/
theorem tried_all (h : Explored size index next dom root (TriedUpTo done cur j) order depths
      origins) (hx : follow next root cur = some x) (hall : (next x).length ≤ j) :
    Explored size index next dom root (Tried (done ++ [cur])) order depths origins := by
  refine h.retry ?_ ?_
  · rintro m (⟨k, hk, i, rfl⟩ | ⟨i, -, rfl⟩)
    · exact ⟨k, List.mem_append_left _ hk, i, rfl⟩
    · exact ⟨cur, List.mem_append_right _ (List.mem_singleton_self _), i, rfl⟩
  · rintro m y ⟨k, hk, i, rfl⟩ hy
    rcases List.mem_append.1 hk with hk | hk
    · exact Or.inl ⟨k, hk, i, rfl⟩
    · cases List.mem_singleton.1 hk
      obtain ⟨x', hx', hi⟩ := follow_append_step_eq_some_iff.1 hy
      cases hx.symm.trans hx'
      have hlt := (List.getElem?_eq_some_iff.1 hi).1
      exact Or.inr ⟨i, Nat.lt_of_lt_of_le hlt hall, rfl⟩

/-- The next itinerary to be tried is later than those on which states were found. -/
theorem sooner_next (h : Explored size index next dom root (TriedUpTo done cur j)
      (done ++ cur :: pending) depths origins) :
    ∀ m ∈ done ++ cur :: pending, Sooner m (cur ++ [j]) := by
  intro m hm
  rcases h.tried_of_mem m hm with rfl | ⟨k, hk, i, rfl⟩ | ⟨i, hi, rfl⟩
  · exact sooner_of_length_lt (by simp)
  · have hcur := (List.pairwise_append.1 h.sorted).2.2 k hk cur List.mem_cons_self
    exact hcur.append_step i j
  · exact sooner_append_step_iff.2 hi

/-- An itinerary that is found sooner than the current one is done. -/
theorem mem_done (h : Explored size index next dom root tried (done ++ cur :: pending) depths
      origins) (hk : k ∈ done ++ cur :: pending) (hlt : Sooner k cur) : k ∈ done := by
  rcases List.mem_append.1 hk with hk | hk
  · exact hk
  · rcases List.mem_cons.1 hk with rfl | hk
    · exact absurd hlt (not_sooner_self _)
    · have hafter := List.rel_of_pairwise_cons (List.pairwise_append.1 h.sorted).2.1 hk
      exact absurd hlt hafter.asymm

/-- **Whatever is sooner than the next itinerary leads to a state that has been found, and found no
later.** -/
theorem exists_of_sooner (h : Explored size index next dom root (TriedUpTo done cur j)
      (done ++ cur :: pending) depths origins) (hlt : Sooner m (cur ++ [j]))
    (hm : follow next root m = some x) :
    ∃ k ∈ done ++ cur :: pending, follow next root k = some x ∧ ¬ Sooner m k := by
  induction m using List.reverseRecOn generalizing x with
  | nil =>
    cases hm
    exact ⟨[], h.root_mem, rfl, not_sooner_self _⟩
  | append_singleton m i ih =>
    obtain ⟨y, hy, hyx⟩ := follow_append_step_eq_some_iff.1 hm
    have hshort : Sooner m (m ++ [i]) := sooner_of_length_lt (by simp)
    obtain ⟨k, hk, hky, hkm⟩ := ih (hshort.trans hlt) hy
    -- one step on from `k` leads to the same state, and is no later than the given itinerary
    have hstep : ¬ Sooner (m ++ [i]) (k ++ [i]) := mt sooner_of_append_step hkm
    -- so it comes before the next itinerary to be tried, and must have been tried
    have hnext : TriedUpTo done cur j (k ++ [i]) := by
      rcases sooner_or_eq_or_sooner k cur with hkc | rfl | hkc
      · exact Or.inl ⟨k, h.mem_done hk hkc, i, rfl⟩
      · refine Or.inr ⟨i, ?_, rfl⟩
        by_contra hij
        exact not_sooner_trans (mt sooner_append_step_iff.1 hij) hstep hlt
      · exact absurd (hlt.trans (hkc.append_step j i)) hstep
    obtain ⟨k', hk', hlead, hle⟩ := h.covered (k ++ [i]) x hnext
      (follow_append_step_eq_some_iff.2 ⟨y, hky, hyx⟩)
    exact ⟨k', hk', hlead, not_sooner_trans hle hstep⟩

/-- When nothing is left to try, every state to which an itinerary leads has been found, and found
no later. -/
theorem exists_of_follow (h : Explored size index next dom root (Tried done) done depths origins)
    (hm : follow next root m = some x) :
    ∃ k ∈ done, follow next root k = some x ∧ ¬ Sooner m k := by
  induction m using List.reverseRecOn generalizing x with
  | nil =>
    cases hm
    exact ⟨[], h.root_mem, rfl, not_sooner_self _⟩
  | append_singleton m i ih =>
    obtain ⟨y, hy, hyx⟩ := follow_append_step_eq_some_iff.1 hm
    obtain ⟨k, hk, hky, hkm⟩ := ih hy
    obtain ⟨k', hk', hlead, hle⟩ := h.covered (k ++ [i]) x ⟨k, hk, i, rfl⟩
      (follow_append_step_eq_some_iff.2 ⟨y, hky, hyx⟩)
    exact ⟨k', hk', hlead, not_sooner_trans hle (mt sooner_of_append_step hkm)⟩

end Explored

/-! ## The run -/

/-- The states that wait to be taken, in order. -/
def Progress.queue (p : Progress α) : List α := p.ahead ++ p.later.reverse

theorem Progress.queue_record (p : Progress α) (n depth : Nat) (origin : Nat × Nat) (x : α) :
    (p.record n depth origin x).queue = p.queue ++ [x] := by
  rw [queue, queue, record, List.reverse_cons, List.append_assoc]

theorem Progress.pop?_of_nil (h : p.queue = []) : p.pop? = none := by
  obtain ⟨hahead, hlater⟩ := List.append_eq_nil_iff.1 h
  rw [pop?, hahead, hlater]

theorem Progress.pop?_of_cons {rest : List α} (h : p.queue = x :: rest) :
    ∃ p', p.pop? = some (x, p') ∧ p'.depths = p.depths ∧ p'.origins = p.origins ∧
      p'.queue = rest := by
  unfold queue at h
  unfold pop?
  cases hahead : p.ahead with
  | cons y ys =>
    rw [hahead, List.cons_append, List.cons.injEq] at h
    obtain ⟨rfl, hrest⟩ := h
    exact ⟨_, rfl, rfl, rfl, hrest⟩
  | nil =>
    rw [hahead, List.nil_append] at h
    rw [h]
    exact ⟨_, rfl, rfl, rfl, List.append_nil rest⟩

/-- A moment of the search at which no goal has been found: the itineraries `pending` wait in the
queue, each by the state to which it leads. -/
structure Stage (size : Nat) (index : α → Nat) (next : α → List α) (dom : α → Prop)
    (goal : α → Bool) (root : α) (tried : List Nat → Prop) (order pending : List (List Nat))
    (p : Progress α) : Prop where
  explored : Explored size index next dom root tried order p.depths p.origins
  queue_eq : pending.map (follow next root) = p.queue.map some
  no_goal : ∀ k ∈ order, ∀ x, follow next root k = some x → goal x = false

/-- The search has stopped at a goal. It was found on the soonest itinerary to a goal, and the notes
lead back along it. -/
structure StopsAt (size : Nat) (index : α → Nat) (next : α → List α) (dom : α → Prop)
    (goal : α → Bool) (root x : α) (k : List Nat) (p : Progress α) : Prop where
  isGoal : goal x = true
  leads : follow next root k = some x
  first : ∀ m y, follow next root m = some y → goal y = true → ¬ Sooner m k
  found : ∃ tried order, k ∈ order ∧
    Explored size index next dom root tried order p.depths p.origins

/-- The next itinerary, if it leads to a goal, is the soonest that does. -/
theorem Stage.first_next
    (h : Stage size index next dom goal root (TriedUpTo done cur j) (done ++ cur :: pending) pending
      p) (hm : follow next root m = some y) (hy : goal y = true) : ¬ Sooner m (cur ++ [j]) := by
  intro hlt
  obtain ⟨k, hk, hlead, -⟩ := h.explored.exists_of_sooner hlt hm
  rw [h.no_goal k hk y hlead] at hy
  cases hy

/-- A new state that is no goal waits at the end of the queue. -/
theorem Stage.record {n : Nat} {origin : Nat × Nat}
    (h : Stage size index next dom goal root (TriedUpTo done cur j) (done ++ cur :: pending) pending
      p)
    (hrecord : Explored size index next dom root
      (fun m => TriedUpTo done cur j m ∨ m = cur ++ [j]) (done ++ cur :: pending ++ [cur ++ [j]])
      (p.record (index y) n origin y).depths (p.record (index y) n origin y).origins)
    (hlead : follow next root (cur ++ [j]) = some y) (hgoal : goal y = false) :
    Stage size index next dom goal root (TriedUpTo done cur (j + 1))
      (done ++ cur :: (pending ++ [cur ++ [j]])) (pending ++ [cur ++ [j]])
      (p.record (index y) n origin y) := by
  rw [← List.cons_append, ← List.append_assoc]
  refine ⟨hrecord.tried_next, ?_, fun m hm z hz => ?_⟩
  · rw [Progress.queue_record, List.map_append, List.map_append, h.queue_eq,
      List.map_singleton, List.map_singleton, hlead]
  · rcases List.mem_append.1 hm with hm | hm
    · exact h.no_goal m hm z hz
    · rw [List.mem_singleton.1 hm, hlead] at hz
      cases hz
      exact hgoal

/-- To look at the successors of a state either finds a goal, on the soonest itinerary to one, or
tries every step on from the current itinerary. -/
theorem Stage.scan (num : Numbering size index next dom) (hroot : dom root)
    (hx : follow next root cur = some x) {rest : List α}
    (h : Stage size index next dom goal root (TriedUpTo done cur j) (done ++ cur :: pending) pending
      p) (hrest : (next x).drop j = rest) :
    (∃ p' pending', Search.scan index goal (index x) (cur.length + 1) (rest.zipIdx j) p =
        some (false, p') ∧
      Stage size index next dom goal root (Tried (done ++ [cur])) (done ++ [cur] ++ pending')
        pending' p') ∨
    ∃ p' k y, Search.scan index goal (index x) (cur.length + 1) (rest.zipIdx j) p =
        some (true, p') ∧ StopsAt size index next dom goal root y k p' := by
  induction rest generalizing j pending p with
  | nil =>
    have hall := h.explored.tried_all hx (List.drop_eq_nil_iff.1 hrest)
    refine Or.inl ⟨p, pending, rfl, ?_⟩
    rw [← List.append_cons]
    exact ⟨hall, h.queue_eq, h.no_goal⟩
  | cons y rest ih =>
    have hy : (next x)[j]? = some y := by
      rw [← List.head?_drop, hrest, List.head?_cons]
    have hafter : (next x).drop (j + 1) = rest := by
      rw [← List.tail_drop, hrest, List.tail_cons]
    have hlead : follow next root (cur ++ [j]) = some y :=
      follow_append_step_eq_some_iff.2 ⟨x, hx, hy⟩
    have hdom : dom y := dom_of_follow num hroot hlead
    have hlate := h.explored.sooner_next
    rw [List.zipIdx_cons, Search.scan]
    rcases hcell : p.depths[index y]? with - | - | n
    · -- the state is numbered, and has a cell
      rw [Array.getElem?_eq_none_iff, h.explored.size_depths] at hcell
      exact absurd (num.index_lt hdom) (Nat.not_lt.2 hcell)
    · have hmem : cur ∈ done ++ cur :: pending := List.mem_append_right _ List.mem_cons_self
      have hrecord := h.explored.record num hroot hmem hx hy hcell hlate
      dsimp only
      cases hgoal : goal y with
      | true =>
        rw [if_pos rfl]
        refine Or.inr ⟨_, cur ++ [j], y, rfl, hgoal, hlead, fun m z => h.first_next, _, _, ?_,
          hrecord⟩
        exact List.mem_append_right _ (List.mem_singleton_self _)
      | false =>
        rw [if_neg Bool.false_ne_true]
        exact ih (h.record hrecord hlead hgoal) hafter
    · have hskip := h.explored.skip hdom hlead hcell hlate
      exact ih ⟨hskip.tried_next, h.queue_eq, h.no_goal⟩ hafter

/-- **The search finds the soonest itinerary to a goal, or everything in reach.** -/
theorem Stage.loop (num : Numbering size index next dom) (hroot : dom root) {fuel : Nat}
    (h : Stage size index next dom goal root (Tried done) (done ++ pending) pending p)
    (hfuel : size ≤ done.length + fuel) :
    (∃ p' done', Search.loop index next goal fuel p = some (false, p') ∧
      Stage size index next dom goal root (Tried done') done' [] p') ∨
    ∃ p' k x, Search.loop index next goal fuel p = some (true, p') ∧
      StopsAt size index next dom goal root x k p' := by
  induction fuel generalizing done pending p with
  | zero =>
    -- as many itineraries are done as there are cells, so none is left
    have hlen := h.explored.length_le num hroot
    rw [List.length_append] at hlen
    obtain rfl : pending = [] := List.length_eq_zero_iff.1 (by omega)
    rw [List.append_nil] at h
    exact Or.inl ⟨p, done, rfl, h⟩
  | succ fuel ih =>
    cases pending with
    | nil =>
      have hqueue : p.queue = [] := List.map_eq_nil_iff.1 h.queue_eq.symm
      rw [List.append_nil] at h
      rw [Search.loop, Progress.pop?_of_nil hqueue]
      exact Or.inl ⟨p, done, rfl, h⟩
    | cons cur pending =>
      obtain ⟨x, rest, hqueue, hx, hrest⟩ := List.map_eq_cons_iff.1 h.queue_eq.symm
      obtain ⟨p₁, hpop, hdepths, horigins, hqueue₁⟩ := Progress.pop?_of_cons hqueue
      have hcur : cur ∈ done ++ cur :: pending := List.mem_append_right _ List.mem_cons_self
      have hdom : dom x := dom_of_follow num hroot hx.symm
      have hdepth := (h.explored.depth_iff hdom cur.length).2 ⟨cur, hcur, hx.symm, rfl⟩
      -- the state leaves the queue, but its itinerary stays among those found
      have hbegin : Stage size index next dom goal root (TriedUpTo done cur 0)
          (done ++ cur :: pending) pending p₁ := by
        refine ⟨?_, by rw [hqueue₁, hrest], h.no_goal⟩
        rw [hdepths, horigins]
        refine h.explored.retry ?_ ?_
        · exact fun _ => triedUpTo_zero_iff.2
        · exact fun _ _ hm _ => triedUpTo_zero_iff.1 hm
      rw [Search.loop, hpop]
      simp only [hdepths, hdepth, Option.join_some, Option.bind_eq_bind, Option.bind_some]
      rcases hbegin.scan num hroot hx.symm List.drop_zero with
        ⟨p', pending', hscan, hstage⟩ | ⟨p', k, y, hscan, hstops⟩
      · rw [hscan]
        refine ih hstage ?_
        rw [List.length_append, List.length_singleton]
        omega
      · rw [hscan]
        exact Or.inr ⟨p', k, y, rfl, hstops⟩

theorem stage_start (num : Numbering size index next dom) (hroot : dom root)
    (hgoal : goal root = false) :
    ∃ p, start size index root = some p ∧
      Stage size index next dom goal root (Tried []) ([] ++ [[]]) [[]] p := by
  refine ⟨_, if_pos (num.index_lt hroot), ?_, rfl, ?_⟩
  · constructor
    case size_depths =>
      rw [Array.size_setIfInBounds, Array.size_replicate]
    case size_origins =>
      exact Array.size_replicate
    case sorted =>
      exact List.pairwise_singleton _ _
    case leads =>
      intro k hk
      rw [List.mem_singleton.1 hk]
      exact ⟨root, rfl⟩
    case apart =>
      exact List.nodup_singleton _
    case depth_iff =>
      intro x hx n
      simp only [List.nil_append, List.mem_singleton, exists_eq_left, follow, List.length_nil,
        Array.getElem?_setIfInBounds, Array.size_replicate, Array.getElem?_replicate]
      by_cases heq : index root = index x
      · obtain rfl := num.index_inj hroot hx heq
        simp [num.index_lt hroot]
      · have hne : root ≠ x := fun h => heq (congrArg index h)
        rw [if_neg heq, if_pos (num.index_lt hx)]
        simp [hne]
    case root_mem =>
      exact List.mem_singleton_self _
    case origin_root =>
      rw [Array.getElem?_replicate, if_pos (num.index_lt hroot)]
    case origin_step =>
      intro k i hk
      simp at hk
    case tried_of_mem =>
      exact fun k hk => Or.inl (List.mem_singleton.1 hk)
    case covered =>
      rintro k x ⟨m, hm, -⟩
      exact absurd hm List.not_mem_nil
  · intro k hk x hx
    rw [List.mem_singleton.1 hk] at hx
    cases hx
    exact hgoal

/-- A search stops at a goal, or finds everything in reach and no goal. -/
theorem run_cases (goal : α → Bool) (num : Numbering size index next dom) (hroot : dom root)
    (hgoal : goal root = false) :
    (∃ p done, run size index next goal root = some (false, p) ∧
      Stage size index next dom goal root (Tried done) done [] p) ∨
    ∃ p k x, run size index next goal root = some (true, p) ∧
      StopsAt size index next dom goal root x k p := by
  obtain ⟨p, hstart, hstage⟩ := stage_start num hroot hgoal
  rw [run, hstart]
  exact hstage.loop num hroot (Nat.le_add_left size _)

/-! ## Searches without a goal -/

/-- The arrays have a cell for every state, with the least number of steps to it, and lead back from
every state in reach along an itinerary of that length. -/
structure Surveys (size : Nat) (index : α → Nat) (next : α → List α) (dom : α → Prop) (root : α)
    (depths : Array (Option Nat)) (origins : Array (Option (Nat × Nat))) : Prop where
  size_eq : depths.size = size
  depth_iff : ∀ {x}, dom x → ∀ n, depths[index x]? = some (some n) ↔ IsDepth next root n x
  open_iff : ∀ {x}, dom x → (depths[index x]? = some none ↔ ∀ n, ¬ Walk next root n x)
  retrace : ∀ {x n}, IsDepth next root n x → ∃ k, k.length = n ∧ follow next root k = some x ∧
    (Search.retrace origins n (index x)).map Prod.snd = k

/-- The itineraries of a search that has found everything in reach are the soonest. -/
theorem Explored.soonest (h : Explored size index next dom root (Tried done) done depths origins)
    (hk : k ∈ done) (hx : follow next root k = some x) : Soonest next root x k where
  leads := hx
  first := by
    intro m hm
    obtain ⟨k', hk', hlead, hle⟩ := h.exists_of_follow hm
    obtain rfl : k' = k :=
      List.inj_on_of_nodup_map h.apart hk' hk (by rw [hlead, hx])
    exact hle

theorem Explored.surveys (h : Explored size index next dom root (Tried done) done depths origins)
    (num : Numbering size index next dom) :
    Surveys size index next dom root depths origins := by
  have hreached : ∀ {x n}, IsDepth next root n x →
      ∃ k ∈ done, follow next root k = some x ∧ k.length = n := by
    intro x n hn
    obtain ⟨m, -, hm⟩ := exists_follow_of_walk hn.1
    obtain ⟨k, hk, hlead, -⟩ := h.exists_of_follow hm
    exact ⟨k, hk, hlead, (h.soonest hk hlead).isDepth.unique hn⟩
  have hdepth : ∀ {x}, dom x → ∀ n, depths[index x]? = some (some n) ↔ IsDepth next root n x := by
    intro x hx n
    rw [h.depth_iff hx]
    constructor
    · rintro ⟨k, hk, hlead, rfl⟩
      exact (h.soonest hk hlead).isDepth
    · exact hreached
  refine ⟨h.size_depths, hdepth, ?_, ?_⟩
  · intro x hx
    constructor
    · intro hopen n hn
      obtain ⟨j, -, hj⟩ := hn.exists_isDepth
      rw [(hdepth hx j).2 hj] at hopen
      cases hopen
    · intro hnone
      have hlt : index x < depths.size := h.size_depths ▸ num.index_lt hx
      rw [Array.getElem?_eq_getElem hlt]
      cases hcell : depths[index x] with
      | none => rfl
      | some n =>
        have hn := (hdepth hx n).1 (by rw [Array.getElem?_eq_getElem hlt, hcell])
        exact absurd hn.1 (hnone n)
  · intro x n hn
    obtain ⟨k, hk, hlead, rfl⟩ := hreached hn
    exact ⟨k, rfl, hlead, (h.retrace_eq hk hlead le_rfl).1⟩

/-- **A search without a goal answers**, and surveys all states in reach. -/
theorem exists_run (num : Numbering size index next dom) (hroot : dom root) :
    ∃ p, run size index next (fun _ => false) root = some (false, p) ∧
      Surveys size index next dom root p.depths p.origins := by
  rcases run_cases (fun _ => false) num hroot rfl with
    ⟨p, done, hrun, hstage⟩ | ⟨_, _, _, -, hstops⟩
  · exact ⟨p, hrun, hstage.explored.surveys num⟩
  · cases hstops.isGoal

theorem exists_depths (num : Numbering size index next dom) (hroot : dom root) :
    ∃ table, depths? size index next root = some table ∧
      ∃ origins, Surveys size index next dom root table origins := by
  obtain ⟨p, hrun, hsurveys⟩ := exists_run num hroot
  rw [depths?, hrun]
  exact ⟨p.depths, rfl, p.origins, hsurveys⟩

end QubitAllocation.Search
