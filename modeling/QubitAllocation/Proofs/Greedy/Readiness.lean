import QubitAllocation.Proofs.Greedy.Soundness

/-!
# Counting finds the nodes that are at the front of all their wires

The loop of the greedy strategy never asks which nodes are at the front of all their wires. It keeps
counts, which it brings up to date before it looks for ready nodes, and it does not look at the
answer of the cursor when it commits a node. `recordAll` is the same loop with another handler,
which keeps a record: each time the wires are counted and each time a node is committed, it notes
the frontier at that moment. The record changes nothing about the loop (`outcome_recordAll`), and it
is kept up to the refusal if the loop is refused.

`Call.Right c done` says what a call does once the nodes `done` have been scheduled, and `Records`
carries it through a recorded computation, together with what the frontier knows about `done`. So in
every record the ready nodes, once the wires have been counted, are the open nodes with two wires or
more that are at the front of all of them, and every commit moves the cursor
(`ready_iff_open_at_fronts`).
-/

set_option autoImplicit false

namespace QubitAllocation.Greedy

open QubitAllocation.Outcome

/-! ## The loop with a record of its calls -/

namespace Call

/-- The frontier of a call. -/
def frontier : Call → Frontier
  | .mark f => f
  | .commit _ f _ => f

/-- The cause and the node of a commit. -/
def commit? : Call → Option (Cause × Nat)
  | .mark _ => none
  | .commit cause _ i => some (cause, i)

end Call

/-- The nodes that the calls commit. -/
def committedBy (calls : List Call) : List Nat := (calls.filterMap Call.commit?).map Prod.snd

/-- A value or a refusal, and the calls that were made before it. -/
structure Recorded (α : Type) where
  calls : List Call
  outcome : Except AllocError α

namespace Recorded

instance : Monad Recorded where
  pure a := ⟨[], .ok a⟩
  bind x f :=
    match x.outcome with
    | .ok a => ⟨x.calls ++ (f a).calls, (f a).outcome⟩
    | .error e => ⟨x.calls, .error e⟩

/-- What makes no call. -/
def silent {α : Type} (x : Except AllocError α) : Recorded α := ⟨[], x⟩

/-- Make a call and note it. -/
def make (c : Circuit) (call : Call) : Recorded Frontier :=
  ⟨[call], AllocError.lookup (call.answer c)⟩

end Recorded

open Recorded

/-- Every call is noted and made. -/
abbrev noting : Handler Recorded where
  lift := silent
  call := make

/-- The loop with a record of its calls. -/
def recordAll (t : Task) (fuel : Nat) (r : Run) : Recorded Run := noting.advanceAll t fuel r

/-! ## The record changes nothing -/

section Outcome

variable {α β : Type}

theorem Recorded.outcome_bind (x : Recorded α) (f : α → Recorded β) :
    (x >>= f).outcome = x.outcome >>= fun a => (f a).outcome := by
  show (match x.outcome with
    | .ok a => (⟨x.calls ++ (f a).calls, (f a).outcome⟩ : Recorded β)
    | .error e => ⟨x.calls, .error e⟩).outcome = _
  cases x.outcome with
  | ok a => rfl
  | error e => rfl

variable (t : Task)

theorem outcome_commitFree (free : List Nat) (r : Run) :
    (noting.commitFree t free r).outcome = plain.commitFree t free r := by
  induction free generalizing r with
  | nil => rfl
  | cons i free ih =>
    simp only [Handler.commitFree, outcome_bind, ih]
    rfl

theorem outcome_commitCheapest (r : Run) :
    (noting.commitCheapest t r).outcome = plain.commitCheapest t r := by
  simp only [Handler.commitCheapest, outcome_bind]
  rfl

theorem outcome_advance (r : Run) : (noting.advance t r).outcome = plain.advance t r := by
  unfold Handler.advance
  cases r.frontier.lone? t.circuit with
  | some i =>
    simp only [outcome_bind]
    rfl
  | none =>
    simp only [outcome_bind]
    refine bind_congr fun f => ?_
    split_ifs
    · rfl
    · cases f.ready.filter fun i => (t.pair? i).isNone with
      | nil => exact outcome_commitCheapest t _
      | cons i free => exact outcome_commitFree t _ _

/-- **The loop with a record is the loop.** -/
theorem outcome_recordAll (fuel : Nat) (r : Run) :
    (recordAll t fuel r).outcome = advanceAll t fuel r := by
  unfold recordAll advanceAll
  induction fuel generalizing r with
  | zero => rfl
  | succ fuel ih =>
    rw [Handler.advanceAll, Handler.advanceAll]
    split_ifs
    · rfl
    · rw [outcome_bind, outcome_advance]
      simp only [ih]

end Outcome

/-! ## What a call does -/

section Calls

variable {c : Circuit} {f f' : Frontier} {done : List Nat} {i w : Nat}

theorem isFront?_eq_true_iff {cursor : Cursor} :
    cursor.isFront? c i = some true ↔ i < c.size ∧ ∀ w ∈ c.wires i, cursor.front w = some i := by
  by_cases hi : i < c.size
  · rw [Cursor.isFront?, c.wires?_eq_some hi, Option.map_some, Option.some.injEq, Cursor.leads,
      List.all_eq_true, and_iff_right hi]
    simp only [beq_iff_eq]
  · have hnone : c.wires? i = none := by
      rw [c.wires?_eq, Circuit.node?, Array.getElem?_eq_none (Nat.not_lt.1 hi)]
      rfl
    rw [Cursor.isFront?, hnone]
    simp [hi]

/-- Counting a wire leaves the cursor where it is. -/
theorem cursor_of_markWire (h : f.markWire w = some f') : f'.cursor = f.cursor := by
  obtain ⟨counted, -, h⟩ := Option.bind_eq_some_iff.1 h
  split_ifs at h
  · cases h
    rfl
  · split at h
    · cases h
      rfl
    · obtain ⟨waiting, -, h⟩ := Option.bind_eq_some_iff.1 h
      split at h
      · cases h
      · cases h
        rfl

theorem cursor_of_foldlM_markWire {wires : List Nat}
    (h : wires.foldlM Frontier.markWire f = some f') : f'.cursor = f.cursor := by
  induction wires generalizing f with
  | nil =>
    cases h
    rfl
  | cons w wires ih =>
    rw [List.foldlM_cons] at h
    obtain ⟨f₁, hf₁, h⟩ := Option.bind_eq_some_iff.1 h
    rw [ih h, cursor_of_markWire hf₁]

/-- What a call does if the nodes `done` have been scheduled before it. -/
structure Call.Right (c : Circuit) (done : List Nat) (call : Call) : Prop where
  schedule : call.frontier.schedule = done.map c.callPointAt
  mark : ∀ f, call = .mark f → ∃ f', f.mark c = some f' ∧ f'.ready.Pairwise (· < ·) ∧
    ∀ i, i ∈ f'.ready ↔ 2 ≤ c.arity i ∧ i ∉ done ∧ f'.cursor.isFront? c i = some true
  commit : ∀ cause f i, call = .commit cause f i →
    ∃ f', f.commit c i = some f' ∧ f.cursor.advance? c i = some (true, f'.cursor)

/-- **Once the wires have been counted, the ready nodes are the open ones at all their fronts.** No
lone node is at a front, so these have two wires at least. -/
theorem mem_ready_iff_of_lone_none (h : f.Scheduled c done) (hlone : f.lone? c = none)
    (hf : f.mark c = some f') :
    i ∈ f'.ready ↔ 2 ≤ c.arity i ∧ i ∉ done ∧ f'.cursor.isFront? c i = some true := by
  obtain ⟨_, hmark, h', hseen⟩ := Frontier.mark_of_scheduled h
  obtain rfl := Option.some.inj (hf.symm.trans hmark)
  rw [h'.mem_ready_iff hseen, isFront?_eq_true_iff]
  constructor
  · rintro ⟨hlt, hfresh, hfront⟩
    refine ⟨?_, hfresh, hlt, hfront⟩
    obtain ⟨w, hw⟩ := List.exists_mem_of_ne_nil (c.wires i) fun hbare =>
      hfresh (h.wireless i hlt hbare)
    rw [cursor_of_foldlM_markWire hf] at hfront
    exact Frontier.two_le_arity_of_front hlone (hfront w hw)
  · rintro ⟨-, hfresh, hlt, hfront⟩
    exact ⟨hlt, hfresh, hfront⟩

theorem right_mark (h : f.Scheduled c done) (hlone : f.lone? c = none) :
    Call.Right c done (.mark f) where
  schedule := h.schedule
  mark := by
    rintro _ ⟨⟩
    obtain ⟨f', hf, h', -⟩ := Frontier.mark_of_scheduled h
    exact ⟨f', hf, h'.ready_sorted, fun i => mem_ready_iff_of_lone_none h hlone hf⟩
  commit := by
    rintro _ _ _ ⟨⟩

theorem right_commit (h : f.Scheduled c done) (hi : f.Leads c done i) (cause : Cause) :
    Call.Right c done (.commit cause f i) where
  schedule := h.schedule
  mark := by
    rintro _ ⟨⟩
  commit := by
    rintro _ _ _ ⟨⟩
    refine ⟨f.committed c i, Frontier.commit_eq hi, ?_⟩
    have hleads : f.cursor.leads (c.wires i) i = true :=
      List.all_eq_true.2 fun w hw => beq_iff_eq.2 (hi.front w hw)
    rw [Cursor.advance?, c.wires?_eq_some hi.lt, Option.map_some, if_pos hleads]
    rfl

end Calls

/-! ## What a record holds -/

theorem committedBy_append (calls more : List Call) :
    committedBy (calls ++ more) = committedBy calls ++ committedBy more := by
  rw [committedBy, List.filterMap_append, List.map_append]
  rfl

/-- Every call does what is right at its place among the calls. -/
def AllRight (c : Circuit) : List Nat → List Call → Prop
  | _, [] => True
  | done, call :: rest => call.Right c done ∧ AllRight c (done ++ committedBy [call]) rest

theorem allRight_append {c : Circuit} {done : List Nat} {calls more : List Call} :
    AllRight c done (calls ++ more) ↔
      AllRight c done calls ∧ AllRight c (done ++ committedBy calls) more := by
  induction calls generalizing done with
  | nil =>
    show AllRight c done more ↔ True ∧ AllRight c (done ++ []) more
    rw [List.append_nil, true_and]
  | cons call calls ih =>
    rw [List.cons_append, AllRight, AllRight, ih, and_assoc, List.append_assoc,
      ← committedBy_append, List.singleton_append]

/-- The calls are right from `done` on, and a value comes with the nodes scheduled by then. -/
structure Records {α : Type} (c : Circuit) (done : List Nat) (x : Recorded α)
    (post : α → List Nat → Prop) : Prop where
  right : AllRight c done x.calls
  value : ∀ a, x.outcome = .ok a → post a (done ++ committedBy x.calls)

section Records

variable {α β : Type} {c : Circuit} {done : List Nat} {post : α → List Nat → Prop}

theorem records_pure {a : α} (h : post a done) : Records c done (pure a) post where
  right := trivial
  value := by
    rintro _ ⟨⟩
    show post a (done ++ [])
    rwa [List.append_nil]

theorem records_error (e : AllocError) : Records c done (silent (.error e)) post where
  right := trivial
  value := by
    rintro _ ⟨⟩

/-- What makes no call leaves the scheduled nodes as they are. -/
theorem records_silent_bind {x : Except AllocError β} {g : β → Recorded α}
    (h : ∀ b, x = .ok b → Records c done (g b) post) : Records c done (silent x >>= g) post := by
  cases x with
  | error e => exact records_error e
  | ok b => exact h b rfl

/-- **One part after the other.** -/
theorem Records.bind {x : Recorded α} {g : α → Recorded β} {post' : β → List Nat → Prop}
    (hx : Records c done x post)
    (hg : ∀ a now, x.outcome = .ok a → post a now → Records c now (g a) post') :
    Records c done (x >>= g) post' := by
  obtain ⟨calls, outcome⟩ := x
  cases outcome with
  | error e =>
    exact ⟨hx.right, fun _ hb => by cases hb⟩
  | ok a =>
    have hrest := hg a _ rfl (hx.value a rfl)
    refine ⟨allRight_append.2 ⟨hx.right, hrest.right⟩, fun b hb => ?_⟩
    have hvalue := hrest.value b hb
    rw [List.append_assoc, ← committedBy_append] at hvalue
    exact hvalue

variable {f : Frontier} {i : Nat}

theorem records_mark (h : f.Scheduled c done) (hlone : f.lone? c = none) :
    Records c done (make c (.mark f)) fun f' now => f'.Scheduled c now where
  right := ⟨right_mark h hlone, trivial⟩
  value := by
    intro f' hf'
    obtain ⟨_, hf, h', -⟩ := Frontier.mark_of_scheduled h
    obtain rfl := Option.some.inj ((lookup_eq_ok_iff.1 hf').symm.trans hf)
    show f'.Scheduled c (done ++ [])
    rwa [List.append_nil]

theorem records_commit (h : f.Scheduled c done) (hi : f.Leads c done i) (cause : Cause) :
    Records c done (make c (.commit cause f i)) fun f' now =>
      f' = f.committed c i ∧ f'.Scheduled c now where
  right := ⟨right_commit h hi cause, trivial⟩
  value := by
    intro f' hf'
    obtain rfl := Option.some.inj ((lookup_eq_ok_iff.1 hf').symm.trans (Frontier.commit_eq hi))
    exact ⟨rfl, h.committed hi⟩

end Records

section Loop

variable {t : Task} {r : Run} {done : List Nat}

/-- The frontier of the run knows the scheduled nodes. -/
def Run.Knows (t : Task) (r : Run) (now : List Nat) : Prop := r.frontier.Scheduled t.circuit now

/-- The free nodes are read off before the first of them is committed; the others stay ready while
one is. -/
theorem records_free {free : List Nat} (h : r.Knows t done)
    (hready : ∀ i ∈ free, i ∈ r.frontier.ready) (hnd : free.Nodup) :
    Records t.circuit done (noting.commitFree t free r) (Run.Knows t) := by
  induction free generalizing r done with
  | nil => exact records_pure h
  | cons i free ih =>
    rw [List.forall_mem_cons] at hready
    rw [List.nodup_cons] at hnd
    rw [Handler.commitFree]
    refine records_silent_bind fun node _ => ?_
    refine (records_commit h (h.leads_of_ready hready.1) .free).bind ?_
    rintro _ now - ⟨rfl, hnow⟩
    refine ih hnow (fun j hj => ?_) hnd.2
    exact (List.mem_erase_of_ne (ne_of_mem_of_not_mem hj hnd.1)).2 (hready.2 j hj)

theorem records_cheapest (h : r.Knows t done) (hready : r.frontier.ready ≠ []) :
    Records t.circuit done (noting.commitCheapest t r) (Run.Knows t) := by
  rw [Handler.commitCheapest]
  refine records_silent_bind fun bids hbids => records_silent_bind fun best hbest => ?_
  -- the best bid is that of a ready node
  obtain ⟨_, hleast, hleads, -⟩ := commitCheapest_of_bids h hready hbids
  obtain rfl := Option.some.inj ((lookup_eq_ok_iff.1 hbest).symm.trans hleast)
  refine records_silent_bind fun node _ => records_silent_bind ?_
  rintro ⟨ops, state⟩ -
  refine (records_commit h hleads .cheapest).bind ?_
  rintro _ now - ⟨rfl, hnow⟩
  exact records_pure hnow

/-- **One round.** -/
theorem records_advance (h : r.Knows t done) :
    Records t.circuit done (noting.advance t r) (Run.Knows t) := by
  unfold Handler.advance
  cases hlone : r.frontier.lone? t.circuit with
  | some i =>
    refine (records_commit h (h.leads_of_lone hlone).1 .lone).bind ?_
    rintro _ now - ⟨rfl, hnow⟩
    exact records_pure hnow
  | none =>
    refine (records_mark h hlone).bind fun f now _ hnow => ?_
    split_ifs with hempty
    · exact records_error _
    · cases hfree : f.ready.filter fun i => (t.pair? i).isNone with
      | nil =>
        refine records_cheapest (r := { r with frontier := f }) hnow fun hnil => hempty ?_
        rw [List.isEmpty_iff]
        exact hnil
      | cons i free =>
        refine records_free (r := { r with frontier := f }) hnow (fun j hj => ?_) ?_
        · rw [← hfree] at hj
          exact (List.mem_filter.1 hj).1
        · rw [← hfree]
          exact (hnow.ready_sorted.imp fun h => Nat.ne_of_lt h).filter _

/-- **All rounds.** -/
theorem records_all (fuel : Nat) (h : r.Knows t done) :
    Records t.circuit done (recordAll t fuel r) (Run.Knows t) := by
  unfold recordAll
  induction fuel generalizing r done with
  | zero => exact records_pure h
  | succ fuel ih =>
    rw [Handler.advanceAll]
    split_ifs
    · exact records_pure h
    · exact (records_advance h).bind fun next now _ hnow => ih hnow

end Loop

/-- The nodes scheduled after the calls: those without a wire, which are scheduled at the start, and
those that the calls commit. -/
def scheduledAfter (c : Circuit) (calls : List Call) : List Nat :=
  (List.range c.size).filter (fun i => (c.wires i).isEmpty) ++ committedBy calls

/-- **Counting finds the nodes that are at the front of all their wires.** Take the calls that the
loop makes from the start of any circuit, with any pairs, on any device, from any state and up to any
number of rounds. At every call the schedule lists the nodes scheduled before it. Counting the wires
is answered, and the ready nodes are then exactly the nodes with two wires or more that are not
scheduled and are at the front of all their wires. Committing a node, be it a lone one, a free one or
the cheapest, is answered, and the cursor consumes the node. -/
theorem ready_iff_open_at_fronts (t : Task) (s : State) (fuel : Nat) :
    (recordAll t fuel ⟨.start t.circuit, s, 0, []⟩).outcome =
      advanceAll t fuel ⟨.start t.circuit, s, 0, []⟩ ∧
    ∀ before call after,
      (recordAll t fuel ⟨.start t.circuit, s, 0, []⟩).calls = before ++ call :: after →
      call.frontier.schedule = (scheduledAfter t.circuit before).map t.circuit.callPointAt ∧
      (∀ f, call = .mark f → ∃ f', f.mark t.circuit = some f' ∧ f'.ready.Pairwise (· < ·) ∧
        ∀ i, i ∈ f'.ready ↔ 2 ≤ t.circuit.arity i ∧ i ∉ scheduledAfter t.circuit before ∧
          f'.cursor.isFront? t.circuit i = some true) ∧
      ∀ cause f i, call = .commit cause f i → ∃ f', f.commit t.circuit i = some f' ∧
        f.cursor.advance? t.circuit i = some (true, f'.cursor) := by
  refine ⟨outcome_recordAll t fuel _, fun before call after hcalls => ?_⟩
  have hright := (records_all (t := t) (r := ⟨.start t.circuit, s, 0, []⟩) fuel
    (Frontier.scheduled_start t.circuit)).right
  rw [hcalls, allRight_append, AllRight] at hright
  obtain ⟨-, ⟨hschedule, hmark, hcommit⟩, -⟩ := hright
  exact ⟨hschedule, hmark, hcommit⟩

/-- A gate, a barrier and a measurement next to two dependencies, and a statement without operands;
the list has each commit and the ready nodes after each call. When the barrier has been committed,
the first dependency and the measurement are ready, and the second dependency is not. -/
theorem ready_iff_open_at_fronts_barrier :
    let d := Device.ofNodup 4 [(0, 1), (1, 2), (2, 3)] (by decide) (by decide)
    let p : Program := ⟨4, 1,
      [.gate "h" [0], .cx 0 1, .barrier [2, 3], .cx 1 2, .measure 3 0, .barrier []]⟩
    let t : Task := ⟨d, .standard, p.circuit, [(1, ⟨0, 1⟩), (3, ⟨1, 2⟩)]⟩
    let calls := (recordAll t 6 ⟨.start t.circuit, ⟨.trivial 4, [0, 1, 2, 3], []⟩, 0, []⟩).calls
    calls.map (fun call => (call.commit?, (call.answer t.circuit).map Frontier.ready)) =
      [(some (.lone, 0), some []), (none, some [1, 2]), (some (.free, 2), some [1]),
        (none, some [1, 4]), (some (.free, 4), some [1]), (none, some [1]),
        (some (.cheapest, 1), some []), (none, some [3]), (some (.cheapest, 3), some [])] ∧
    ∃ before f f' g cursor after, calls = before ++ .mark f :: .commit .free g 4 :: after ∧
      f.mark t.circuit = some f' ∧
      (∀ i, i ∈ [1, 4] ↔ 2 ≤ t.circuit.arity i ∧ i ∉ scheduledAfter t.circuit before ∧
        f'.cursor.isFront? t.circuit i = some true) ∧
      g.cursor.advance? t.circuit 4 = some (true, cursor) := by
  intro d p t calls
  have hcalls : calls.map (fun call => (call.commit?, (call.answer t.circuit).map Frontier.ready)) =
      [(some (.lone, 0), some []), (none, some [1, 2]), (some (.free, 2), some [1])] ++
        (none, some [1, 4]) :: (some (.free, 4), some [1]) :: [(none, some [1]),
          (some (.cheapest, 1), some []), (none, some [3]), (some (.cheapest, 3), some [])] := by
    decide +kernel
  obtain ⟨-, hall⟩ := ready_iff_open_at_fronts t ⟨.trivial 4, [0, 1, 2, 3], []⟩ 6
  refine ⟨hcalls, ?_⟩
  obtain ⟨before, rest, hsplit, -, hrest⟩ := List.map_eq_append_iff.1 hcalls
  obtain ⟨mark, rest, rfl, hmark, hrest⟩ := List.map_eq_cons_iff.1 hrest
  obtain ⟨commit, after, rfl, hcommit, -⟩ := List.map_eq_cons_iff.1 hrest
  rw [Prod.mk.injEq] at hmark hcommit
  cases mark with
  | commit cause f i => cases hmark.1
  | mark f =>
    cases commit with
    | mark g => cases hcommit.1
    | commit cause g i =>
      cases hcommit.1
      obtain ⟨-, hcount, -⟩ := hall before _ _ hsplit
      obtain ⟨-, -, hmove⟩ := hall (before ++ [.mark f]) (.commit .free g 4) after
        (hsplit.trans (by simp))
      obtain ⟨f', hf', -, hiff⟩ := hcount f rfl
      obtain ⟨g', -, hmoved⟩ := hmove _ _ _ rfl
      have hready : f'.ready = [1, 4] := by simpa [Call.answer, hf'] using hmark.2
      exact ⟨before, f, f', g, g'.cursor, after, hsplit, hf', hready ▸ hiff, hmoved⟩

end QubitAllocation.Greedy
