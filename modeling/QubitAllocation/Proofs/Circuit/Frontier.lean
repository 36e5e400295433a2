import QubitAllocation.Circuit.Frontier
import QubitAllocation.Proofs.Circuit.Wires

/-!
# The frontier counts what is ready

`Frontier.Scheduled c f done` says what a frontier knows once the nodes `done` have been scheduled:
they stand in program order on every wire (`Circuit.InOrder`), its cursor has the rest unread, every
open node waits for the wires that have not been counted with the node at their front, and the ready
nodes are those that wait for none. Scheduling a node that leads all its wires keeps this and adds
the node (`Scheduled.committed`), and counting wires keeps it too (`mark_of_scheduled`).

After all wires have been counted the ready nodes are those that lead all their wires
(`Scheduled.mem_ready_iff`), and some node is ready unless all are done (`Scheduled.ready_ne_nil`):
the first open node of the program leads. So a schedule never gets stuck.
-/

set_option autoImplicit false

namespace QubitAllocation

/-- The call point of a node, zero beyond the last node. -/
def Circuit.callPointAt (c : Circuit) (i : Nat) : Nat := ((c.node? i).map Node.callPoint).getD 0

theorem Circuit.callPointAt_eq {c : Circuit} {i : Nat} {node : Node} (h : c.node? i = some node) :
    c.callPointAt i = node.callPoint := by
  rw [callPointAt, h]
  rfl

theorem Circuit.map_callPoint_nodes (c : Circuit) :
    c.nodes.toList.map Node.callPoint = (List.range c.size).map c.callPointAt := by
  apply List.ext_getElem?
  intro i
  rw [List.getElem?_map, List.getElem?_map, Array.getElem?_toList]
  by_cases hi : i < c.size
  · obtain ⟨node, hnode⟩ := c.node?_eq_some hi
    rw [List.getElem?_range hi, Option.map_some, callPointAt_eq hnode]
    exact congrArg (Option.map Node.callPoint) hnode
  · rw [Array.getElem?_eq_none (Nat.not_lt.1 hi),
      List.getElem?_eq_none (by rw [List.length_range]; omega)]
    rfl

/-- The listed nodes stand in program order on every wire, and none of the nodes before them on their
wires is missing. -/
structure Circuit.InOrder (c : Circuit) (done : List Nat) : Prop where
  closed : ∀ i ∈ done, ∀ w ∈ c.wires i, ∀ j, j < i → w ∈ c.wires j → j ∈ done
  ordered : done.Pairwise fun i j => ∀ w ∈ c.wires i, w ∈ c.wires j → i < j

/-- A node may be added once all nodes before it on its wires are listed. -/
theorem Circuit.InOrder.append {c : Circuit} {done : List Nat} {i : Nat} (h : c.InOrder done)
    (hfresh : i ∉ done) (hfirst : ∀ w ∈ c.wires i, ∀ j, j < i → w ∈ c.wires j → j ∈ done) :
    c.InOrder (done ++ [i]) where
  closed := by
    intro k hk w hw j hj hwj
    rw [List.mem_append, List.mem_singleton] at hk
    rcases hk with hk | rfl
    · exact List.mem_append_left _ (h.closed k hk w hw j hj hwj)
    · exact List.mem_append_left _ (hfirst w hw j hj hwj)
  ordered := by
    refine List.pairwise_append.2 ⟨h.ordered, List.pairwise_singleton _ _, ?_⟩
    intro k hk j hj w hwk hwj
    obtain rfl := List.mem_singleton.1 hj
    -- were `j` before `k`, it would be listed with `k`
    by_contra hle
    have hne : k ≠ j := ne_of_mem_of_not_mem hk hfresh
    exact hfresh (h.closed k hk w hwk j (by omega) hwj)

/-- Of two listed nodes on one wire, the one that is first in the program is listed first. -/
theorem Circuit.InOrder.idxOf_lt {c : Circuit} {done : List Nat} {i j w : Nat} (h : c.InOrder done)
    (hi : i ∈ done) (hj : j ∈ done) (hij : i < j) (hwi : w ∈ c.wires i) (hwj : w ∈ c.wires j) :
    done.idxOf i < done.idxOf j := by
  by_contra hle
  have hne : done.idxOf j ≠ done.idxOf i := fun heq => by
    have := (List.idxOf_inj hj).1 heq
    omega
  have hi' := List.idxOf_lt_length_of_mem hi
  have hj' := List.idxOf_lt_length_of_mem hj
  have hlt := List.pairwise_iff_getElem.1 h.ordered _ _ hj' hi' (by omega)
  rw [List.getElem_idxOf hi', List.getElem_idxOf hj'] at hlt
  have := hlt w hwj hwi
  omega

namespace Frontier

/-- The wire has been counted and has the node at its front. -/
def holds (f : Frontier) (w i : Nat) : Bool :=
  f.counted[w]? == some true && f.cursor.front w == some i

/-- The frontier of a circuit whose nodes `done` have been scheduled, in this order. -/
structure Scheduled (c : Circuit) (f : Frontier) (done : List Nat) : Prop where
  nodup : done.Nodup
  lt : ∀ i ∈ done, i < c.size
  wireless : ∀ i, i < c.size → c.wires i = [] → i ∈ done
  order : c.InOrder done
  schedule : f.schedule = done.map c.callPointAt
  left : f.cursor.Left c done
  counted_size : f.counted.size = c.numWires
  waiting : ∀ i, i < c.size → i ∉ done →
    f.waiting[i]? = some ((c.wires i).countP fun w => !f.holds w i)
  ready_iff : ∀ i, i ∈ f.ready ↔ i < c.size ∧ i ∉ done ∧ f.waiting[i]? = some 0
  ready_sorted : f.ready.Pairwise (· < ·)

/-- The node is open and at the front of all its wires. -/
structure Leads (c : Circuit) (f : Frontier) (done : List Nat) (i : Nat) : Prop where
  lt : i < c.size
  fresh : i ∉ done
  front : ∀ w ∈ c.wires i, f.cursor.front w = some i

variable {c : Circuit} {f : Frontier} {done : List Nat} {i w : Nat}

theorem holds_iff :
    f.holds w i = true ↔ f.counted[w]? = some true ∧ f.cursor.front w = some i := by
  rw [holds, Bool.and_eq_true, beq_iff_eq, beq_iff_eq]

/-! ## The start -/

theorem start_schedule (c : Circuit) :
    (start c).schedule =
      ((List.range c.size).filter fun i => (c.wires i).isEmpty).map c.callPointAt := by
  have hcalls := c.map_callPoint_nodes
  have hwires : c.wireTable.toList = (List.range c.size).map c.wires := by
    apply List.ext_getElem?
    intro i
    rw [Array.getElem?_toList, List.getElem?_map]
    show c.wires? i = _
    by_cases hi : i < c.size
    · rw [c.wires?_eq_some hi, List.getElem?_range hi, Option.map_some]
    · rw [c.wires?_eq, Circuit.node?, Array.getElem?_eq_none (Nat.not_lt.1 hi),
        List.getElem?_eq_none (by rw [List.length_range]; omega)]
      rfl
  have hzip : (start c).schedule =
      (((c.nodes.toList.map Node.callPoint).zip c.wireTable.toList).filter fun entry =>
        entry.2.isEmpty).map Prod.fst := by
    rw [List.zip_map_left, List.filter_map, List.map_map]
    rfl
  rw [hzip, hcalls, hwires, List.zip_map', List.filter_map, List.map_map]
  rfl

theorem start_waiting (hi : i < c.size) : (start c).waiting[i]? = some (c.wires i).length := by
  have hwires := c.wires?_eq_some hi
  rw [Circuit.wires?] at hwires
  rw [start, Array.getElem?_map, hwires]
  rfl

theorem scheduled_start (c : Circuit) :
    (start c).Scheduled c ((List.range c.size).filter fun i => (c.wires i).isEmpty) where
  nodup := List.nodup_range.filter _
  lt := fun i hi => List.mem_range.1 (List.mem_filter.1 hi).1
  wireless := fun i hi hw => List.mem_filter.2 ⟨List.mem_range.2 hi, by rw [hw]; rfl⟩
  order := by
    have hbare : ∀ i ∈ (List.range c.size).filter fun i => (c.wires i).isEmpty, c.wires i = [] :=
      fun i hi => List.isEmpty_iff.1 (List.mem_filter.1 hi).2
    refine ⟨fun i hi w hw => ?_, List.pairwise_of_forall_mem_list fun i hi j _ w hw => ?_⟩
    · rw [hbare i hi] at hw
      exact absurd hw List.not_mem_nil
    · rw [hbare i hi] at hw
      exact absurd hw List.not_mem_nil
  schedule := start_schedule c
  left := Cursor.left_start c fun i hi => List.isEmpty_iff.1 (List.mem_filter.1 hi).2
  counted_size := Array.size_replicate
  waiting := by
    intro i hi _
    have hall : (c.wires i).countP (fun w => !(start c).holds w i) = (c.wires i).length := by
      refine List.countP_eq_length.2 fun w _ => ?_
      rw [Bool.not_eq_true', ← Bool.not_eq_true, holds_iff]
      rintro ⟨hcounted, -⟩
      rw [start, Array.getElem?_replicate] at hcounted
      split_ifs at hcounted
      cases hcounted
    rw [hall]
    exact start_waiting hi
  ready_iff := by
    intro i
    refine ⟨fun hi => absurd hi List.not_mem_nil, ?_⟩
    rintro ⟨hi, hopen, hzero⟩
    rw [start_waiting hi, Option.some.injEq, List.length_eq_zero_iff] at hzero
    refine absurd (List.mem_filter.2 ⟨List.mem_range.2 hi, ?_⟩) hopen
    rw [hzero]
    rfl
  ready_sorted := List.Pairwise.nil

/-! ## Scheduling a node -/

/-- A node that waits for no wire leads. -/
theorem Scheduled.leads_of_ready (h : f.Scheduled c done) (hi : i ∈ f.ready) :
    f.Leads c done i := by
  obtain ⟨hlt, hfresh, hzero⟩ := (h.ready_iff i).1 hi
  refine ⟨hlt, hfresh, fun w hw => ?_⟩
  rw [h.waiting i hlt hfresh, Option.some.injEq, List.countP_eq_zero] at hzero
  have hholds := hzero w hw
  rw [Bool.not_eq_true', Bool.not_eq_false] at hholds
  exact (holds_iff.1 hholds).2

/-- A node with at most one wire leads once it is at a front. -/
theorem Scheduled.leads_of_lone (h : f.Scheduled c done) (hi : f.lone? c = some i) :
    f.Leads c done i ∧ c.arity i ≤ 1 := by
  have harity := List.find?_some hi
  rw [decide_eq_true_eq] at harity
  obtain ⟨front, hfront, hid⟩ := List.mem_filterMap.1 (List.mem_of_find?_eq_some hi)
  obtain ⟨w, -, rfl⟩ := List.mem_map.1 hfront
  have hwi : f.cursor.front w = some i := hid
  obtain ⟨hmem, hfresh, -⟩ := h.left.front_eq_some_iff.1 hwi
  -- the wire is the only one of the node
  have honly : ∀ w' ∈ c.wires i, w' = w := by
    obtain ⟨w₀, hw₀⟩ : ∃ w₀, c.wires i = [w₀] :=
      List.length_eq_one_iff.1 (Nat.le_antisymm harity (List.length_pos_of_mem hmem))
    rw [hw₀, List.mem_singleton] at hmem
    intro w' hw'
    rw [hw₀, List.mem_singleton] at hw'
    rw [hw', hmem]
  refine ⟨⟨(Circuit.lt_of_mem_wires hmem).2, hfresh, fun w' hw' => ?_⟩, harity⟩
  rw [honly w' hw', hwi]

/-- If no lone node is at a front, the nodes at the fronts have several wires. -/
theorem two_le_arity_of_front (hlone : f.lone? c = none) (hfront : f.cursor.front w = some i) :
    2 ≤ c.arity i := by
  have hw : w < f.cursor.positions.size := by
    by_contra hout
    rw [Cursor.front_of_le (Nat.not_lt.1 hout)] at hfront
    cases hfront
  have hmem : i ∈ f.cursor.fronts.filterMap id :=
    List.mem_filterMap.2 ⟨some i, List.mem_map.2 ⟨w, List.mem_range.2 hw, hfront⟩, rfl⟩
  have hmany := List.find?_eq_none.1 hlone i hmem
  rwa [decide_eq_true_eq, Nat.not_le] at hmany

theorem getElem?_clear {wires : List Nat} {counted : Array Bool} (w : Nat) :
    (wires.foldl (fun counted w => counted.setIfInBounds w false) counted)[w]? =
      if w ∈ wires then (counted[w]?).map fun _ => false else counted[w]? := by
  induction wires generalizing counted with
  | nil => rfl
  | cons x xs ih =>
    rw [List.foldl_cons, ih, Array.getElem?_setIfInBounds]
    by_cases hxw : x = w
    · subst hxw
      rw [if_pos rfl, if_pos List.mem_cons_self]
      by_cases hx : x < counted.size
      · simp [hx]
      · simp [hx]
    · simp only [if_neg hxw, List.mem_cons, Ne.symm hxw, false_or]

theorem size_clear (wires : List Nat) (counted : Array Bool) :
    (wires.foldl (fun counted w => counted.setIfInBounds w false) counted).size = counted.size := by
  induction wires generalizing counted with
  | nil => rfl
  | cons x xs ih => exact (ih _).trans Array.size_setIfInBounds

/-- The frontier once a node has been scheduled. -/
def committed (f : Frontier) (c : Circuit) (i : Nat) : Frontier where
  cursor := f.cursor.dropFronts (c.wires i)
  counted := (c.wires i).foldl (fun counted w => counted.setIfInBounds w false) f.counted
  waiting := f.waiting
  ready := f.ready.erase i
  schedule := f.schedule ++ [c.callPointAt i]

theorem commit_eq (hi : f.Leads c done i) : f.commit c i = some (f.committed c i) := by
  obtain ⟨node, hnode⟩ := c.node?_eq_some hi.lt
  have hleads : f.cursor.leads (c.wires i) i = true :=
    List.all_eq_true.2 fun w hw => beq_iff_eq.2 (hi.front w hw)
  rw [commit, hnode, Cursor.advance?, c.wires?_eq_some hi.lt, Option.map_some, if_pos hleads,
    committed, Circuit.callPointAt_eq hnode]
  rfl

/-- Scheduling a node leaves alone what the wires hold for the other nodes. -/
theorem holds_committed (hi : f.Leads c done i) {j : Nat} (hj : j ≠ i) (w : Nat) :
    (f.committed c i).holds w j = f.holds w j := by
  rw [Bool.eq_iff_iff, holds_iff, holds_iff, committed, getElem?_clear]
  by_cases hw : w ∈ c.wires i
  · -- the wire held `i` and is no longer counted, so it holds `j` neither before nor after
    rw [if_pos hw]
    constructor
    · rintro ⟨hcounted, -⟩
      obtain ⟨_, -, hfalse⟩ := Option.map_eq_some_iff.1 hcounted
      cases hfalse
    · rintro ⟨-, hfront⟩
      rw [hi.front w hw, Option.some.injEq] at hfront
      exact absurd hfront.symm hj
  · rw [if_neg hw, Cursor.front, Cursor.front?_eq, Cursor.unread_dropFronts (c.nodup_wires i),
      if_neg hw, ← Cursor.front?_eq]
    rfl

/-- **Scheduling a node** that leads adds it to what is done. -/
theorem Scheduled.committed (h : f.Scheduled c done) (hi : f.Leads c done i) :
    (f.committed c i).Scheduled c (done ++ [i]) where
  nodup := by
    rw [← List.concat_eq_append]
    exact h.nodup.concat hi.fresh
  lt := by
    intro j hj
    rw [List.mem_append, List.mem_singleton] at hj
    rcases hj with hj | rfl
    · exact h.lt j hj
    · exact hi.lt
  wireless := fun j hj hw => List.mem_append_left _ (h.wireless j hj hw)
  order := h.order.append hi.fresh fun w hw =>
    (h.left.front_eq_some_iff.1 (hi.front w hw)).2.2
  schedule := by
    rw [List.map_append, ← h.schedule]
    rfl
  left := h.left.dropFronts hi.front
  counted_size := (size_clear _ _).trans h.counted_size
  waiting := by
    intro j hj hopen
    rw [List.mem_append, List.mem_singleton, not_or] at hopen
    simp only [holds_committed hi hopen.2]
    exact h.waiting j hj hopen.1
  ready_iff := by
    intro j
    have hnd : f.ready.Nodup := h.ready_sorted.imp fun hlt => Nat.ne_of_lt hlt
    show j ∈ f.ready.erase i ↔ j < c.size ∧ j ∉ done ++ [i] ∧ f.waiting[j]? = some 0
    rw [hnd.mem_erase_iff, h.ready_iff, List.mem_append, List.mem_singleton]
    tauto
  ready_sorted := h.ready_sorted.sublist List.erase_sublist

/-! ## Counting wires -/

/-- The frontier once a wire has been counted with a node at its front that then waits for `left`
more. -/
def tallied (f : Frontier) (w i left : Nat) : Frontier :=
  { f with
    counted := f.counted.setIfInBounds w true
    waiting := f.waiting.setIfInBounds i left
    ready := if left = 0 then insertAscending i f.ready else f.ready }

theorem holds_tallied (hw : w < f.counted.size) {left : Nat} (w' j : Nat) :
    (f.tallied w i left).holds w' j =
      if w' = w then f.cursor.front w == some j else f.holds w' j := by
  rw [holds, tallied, Array.getElem?_setIfInBounds]
  by_cases hww : w' = w
  · subst hww
    rw [if_pos rfl, if_pos hw, if_pos rfl]
    rfl
  · rw [if_neg (Ne.symm hww), if_neg hww]
    rfl

/-- Counting a wire leaves alone what the wires hold for the other nodes. -/
theorem holds_tallied_of_ne (hw : f.counted[w]? = some false)
    (hfront : f.cursor.front w = some i) {left j : Nat} (hj : j ≠ i) (w' : Nat) :
    (f.tallied w i left).holds w' j = f.holds w' j := by
  rw [holds_tallied (Array.getElem?_eq_some_iff.1 hw).1]
  split_ifs with hww
  · rw [hww, hfront, holds, hw, beq_eq_false_iff_ne.2 fun hij => hj (Option.some.inj hij).symm]
    rfl
  · rfl

/-- A list counts one more if one of its elements does. -/
theorem countP_of_flip {l : List Nat} (hnd : l.Nodup) (hw : w ∈ l) {p q : Nat → Bool}
    (hp : p w = true) (hq : q w = false) (hsame : ∀ x ∈ l, x ≠ w → p x = q x) :
    l.countP p = l.countP q + 1 := by
  have hperm := List.perm_cons_erase hw
  rw [hperm.countP_eq p, hperm.countP_eq q, List.countP_cons_of_pos hp,
    List.countP_cons_of_neg (by simp [hq])]
  congr 1
  apply List.countP_congr
  intro x hx
  rw [hnd.mem_erase_iff] at hx
  rw [hsame x hx.2 hx.1]

section Tally

variable (h : f.Scheduled c done) (hw : f.counted[w]? = some false)
  (hfront : f.cursor.front w = some i)

include h hw hfront

/-- The node at the front of a wire that has not been counted waits for it. -/
theorem Scheduled.waiting_front :
    ∃ left, f.waiting[i]? = some (left + 1) ∧
      ∀ k, ((c.wires i).countP fun w' => !(f.tallied w i k).holds w' i) = left := by
  obtain ⟨hmem, hfresh, -⟩ := h.left.front_eq_some_iff.1 hfront
  have hwl : w < f.counted.size := (Array.getElem?_eq_some_iff.1 hw).1
  have hflip : ∀ k, ((c.wires i).countP fun w' => !f.holds w' i) =
      ((c.wires i).countP fun w' => !(f.tallied w i k).holds w' i) + 1 := by
    intro k
    refine countP_of_flip (c.nodup_wires i) hmem ?_ ?_ ?_
    · rw [holds, hw]
      rfl
    · rw [holds_tallied hwl, if_pos rfl, hfront, beq_self_eq_true]
      rfl
    · intro w' _ hne
      rw [holds_tallied hwl, if_neg hne]
  have hwaiting := h.waiting i (Circuit.lt_of_mem_wires hmem).2 hfresh
  rw [hflip 0] at hwaiting
  exact ⟨_, hwaiting, fun k => Nat.succ.inj ((hflip k).symm.trans (hflip 0))⟩

/-- **Counting a wire** keeps the counts right. -/
theorem Scheduled.tallied {left : Nat} (hleft : f.waiting[i]? = some (left + 1))
    (hcount : ((c.wires i).countP fun w' => !(f.tallied w i left).holds w' i) = left) :
    (f.tallied w i left).Scheduled c done where
  nodup := h.nodup
  lt := h.lt
  wireless := h.wireless
  order := h.order
  schedule := h.schedule
  left := h.left
  counted_size := Array.size_setIfInBounds.trans h.counted_size
  waiting := by
    intro j hj hopen
    rw [Frontier.tallied, Array.getElem?_setIfInBounds]
    by_cases hij : i = j
    · subst hij
      rw [if_pos rfl, if_pos (Array.getElem?_eq_some_iff.1 hleft).1]
      exact congrArg some hcount.symm
    · rw [if_neg hij, h.waiting j hj hopen]
      exact congrArg some (List.countP_congr fun w' _ => by
        rw [← holds_tallied_of_ne hw hfront (Ne.symm hij)]
        rfl)
  ready_iff := by
    intro j
    obtain ⟨hmem, hfresh, -⟩ := h.left.front_eq_some_iff.1 hfront
    have hlt := (Circuit.lt_of_mem_wires hmem).2
    have hready := h.ready_iff j
    show j ∈ (if left = 0 then insertAscending i f.ready else f.ready) ↔
      j < c.size ∧ j ∉ done ∧ (f.waiting.setIfInBounds i left)[j]? = some 0
    rw [Array.getElem?_setIfInBounds]
    by_cases hij : i = j
    · subst hij
      rw [if_pos rfl, if_pos (Array.getElem?_eq_some_iff.1 hleft).1, Option.some.injEq]
      split_ifs with hzero
      · rw [mem_insertAscending_iff]
        tauto
      · rw [hready, hleft]
        simp [hzero]
    · rw [if_neg hij, ← hready]
      split_ifs
      · rw [mem_insertAscending_iff]
        tauto
      · exact Iff.rfl
  ready_sorted := by
    show (if left = 0 then insertAscending i f.ready else f.ready).Pairwise (· < ·)
    split_ifs
    · exact pairwise_insertAscending h.ready_sorted
    · exact h.ready_sorted

end Tally

/-- The wire has been counted, or nothing is left on it. -/
def Seen (f : Frontier) (w : Nat) : Prop := f.counted[w]? = some true ∨ f.cursor.front w = none

theorem markWire_of_scheduled (h : f.Scheduled c done) (hw : w < c.numWires) :
    ∃ f', f.markWire w = some f' ∧ f'.Scheduled c done ∧ f'.Seen w ∧
      ∀ w', f.Seen w' → f'.Seen w' := by
  obtain ⟨b, hb⟩ : ∃ b, f.counted[w]? = some b :=
    ⟨_, Array.getElem?_eq_getElem (by rw [h.counted_size]; exact hw)⟩
  cases b with
  | true =>
    refine ⟨f, ?_, h, Or.inl hb, fun _ hseen => hseen⟩
    rw [markWire, hb]
    rfl
  | false =>
    cases hfront : f.cursor.front w with
    | none =>
      refine ⟨f, ?_, h, Or.inr hfront, fun _ hseen => hseen⟩
      rw [markWire, hb]
      simp only [hfront]
      rfl
    | some i =>
      obtain ⟨left, hleft, hcount⟩ := h.waiting_front hb hfront
      have hwl := (Array.getElem?_eq_some_iff.1 hb).1
      refine ⟨f.tallied w i left, ?_, h.tallied hb hfront hleft (hcount left), Or.inl ?_, ?_⟩
      · rw [markWire, hb]
        simp only [hfront, hleft]
        rfl
      · rw [tallied, Array.getElem?_setIfInBounds, if_pos rfl, if_pos hwl]
      · refine fun w' hseen => hseen.imp_left fun hcounted => ?_
        rw [tallied, Array.getElem?_setIfInBounds]
        split_ifs
        · rfl
        · exact hcounted

theorem foldlM_markWire_of_scheduled {wires : List Nat} (h : f.Scheduled c done)
    (hwires : ∀ w ∈ wires, w < c.numWires) :
    ∃ f', wires.foldlM markWire f = some f' ∧ f'.Scheduled c done ∧ (∀ w ∈ wires, f'.Seen w) ∧
      ∀ w', f.Seen w' → f'.Seen w' := by
  induction wires generalizing f with
  | nil => exact ⟨f, rfl, h, List.forall_mem_nil _, fun _ hseen => hseen⟩
  | cons w wires ih =>
    rw [List.forall_mem_cons] at hwires
    obtain ⟨f₁, hf₁, h₁, hseen₁, hkeep₁⟩ := markWire_of_scheduled h hwires.1
    obtain ⟨f', hf', h', hseen, hkeep⟩ := ih h₁ hwires.2
    refine ⟨f', ?_, h', ?_, fun w' hw' => hkeep w' (hkeep₁ w' hw')⟩
    · rw [List.foldlM_cons, hf₁]
      exact hf'
    · exact List.forall_mem_cons.2 ⟨hkeep w hseen₁, hseen⟩

/-- **Counting all wires** succeeds and leaves every wire seen. -/
theorem mark_of_scheduled (h : f.Scheduled c done) :
    ∃ f', f.mark c = some f' ∧ f'.Scheduled c done ∧ ∀ w, w < c.numWires → f'.Seen w := by
  obtain ⟨f', hf', h', hseen, -⟩ :=
    foldlM_markWire_of_scheduled h fun w hw => List.mem_range.1 hw
  exact ⟨f', hf', h', fun w hw => hseen w (List.mem_range.2 hw)⟩

/-! ## Progress -/

/-- While some node is open, there is a first one. -/
theorem exists_least (hlt : done.length < c.size) :
    ∃ i, i < c.size ∧ i ∉ done ∧ ∀ j, j < i → j ∈ done := by
  have hopen : ∃ i, i < c.size ∧ i ∉ done := by
    by_contra hnone
    push Not at hnone
    have hsub := List.nodup_range.subperm fun i hi => hnone i (List.mem_range.1 hi)
    have hle := hsub.length_le
    rw [List.length_range] at hle
    omega
  classical
  refine ⟨Nat.find hopen, (Nat.find_spec hopen).1, (Nat.find_spec hopen).2, fun j hj => ?_⟩
  have hmin := Nat.find_min hopen hj
  rw [not_and, not_not] at hmin
  exact hmin (hj.trans (Nat.find_spec hopen).1)

/-- **The ready nodes are those that lead**, once all wires have been counted. -/
theorem Scheduled.mem_ready_iff (h : f.Scheduled c done) (hseen : ∀ w, w < c.numWires → f.Seen w) :
    i ∈ f.ready ↔ f.Leads c done i := by
  refine ⟨h.leads_of_ready, fun hi => (h.ready_iff i).2 ⟨hi.lt, hi.fresh, ?_⟩⟩
  rw [h.waiting i hi.lt hi.fresh, Option.some.injEq, List.countP_eq_zero]
  intro w hw
  have hfront := hi.front w hw
  rw [Bool.not_eq_true', Bool.not_eq_false, holds_iff]
  refine ⟨(hseen w (Circuit.lt_of_mem_wires hw).1).resolve_right fun hnone => ?_, hfront⟩
  rw [hfront] at hnone
  cases hnone

/-- **Some node is ready** once all wires have been counted, unless all are done. -/
theorem Scheduled.ready_ne_nil (h : f.Scheduled c done) (hseen : ∀ w, w < c.numWires → f.Seen w)
    (hlt : done.length < c.size) : f.ready ≠ [] := by
  -- the first open node leads all its wires
  obtain ⟨i, hi, hfresh, hleast⟩ := exists_least hlt
  refine List.ne_nil_of_mem ((h.mem_ready_iff hseen).2 ⟨hi, hfresh, fun w hw => ?_⟩)
  exact h.left.front_of_least hfresh hleast hw

/-- All nodes are done once as many are done as there are. -/
theorem Scheduled.done_perm (h : f.Scheduled c done) (hle : c.size ≤ done.length) :
    done.Perm (List.range c.size) :=
  (h.nodup.subperm fun i hi => List.mem_range.2 (h.lt i hi)).perm_of_length_le
    (by rwa [List.length_range])

end Frontier

end QubitAllocation
