import QubitAllocation.Proofs.Circuit.Frontier

/-!
# Runs of a cursor

A run asks a cursor for one node after another, in any order and with repetitions, and keeps the
list of the nodes that were consumed (`Cursor.run`). The cursor knows no such list, only what is
unread on each wire, but the two fit together at every moment: `Cursor.Follows` is kept by a call
that is answered with yes and by one that is answered with no (`Follows.attempt`), so it holds after
every run (`Follows.run`).

A node with a wire is consumed exactly if it was not consumed before and every earlier node on one
of its wires was (`Follows.leads_iff`). The first open node is always such a node, and nothing is
unread exactly if no node with a wire is open (`Follows.isDone_iff`). So the runs that consume at
every call and leave nothing unread are the linear extensions of the order of nodes on the wires
(`run_eq_iff_linearExtension`).
-/

set_option autoImplicit false

namespace QubitAllocation

namespace Circuit

/-- The node has a declared operand on the wire. -/
def Touches (c : Circuit) (i w : Nat) : Prop :=
  ∃ node, c.node? i = some node ∧
    ((w < c.numQubits ∧ w ∈ node.qubits) ∨
      ∃ b, b < c.numClbits ∧ b ∈ node.clbits ∧ w = c.numQubits + b)

/-- The node has a wire. -/
def Wired (c : Circuit) (i : Nat) : Prop := ∃ w, c.Touches i w

/-- The first node stands before the second one on a wire. -/
def Precedes (c : Circuit) (j i : Nat) : Prop := j < i ∧ ∃ w, c.Touches j w ∧ c.Touches i w

/-- The nodes with wires, each once, and none before a node that precedes it. -/
structure LinearExtension (c : Circuit) (order : List Nat) : Prop where
  nodup : order.Nodup
  mem_iff : ∀ i, i ∈ order ↔ c.Wired i
  ordered : order.Pairwise fun i j => ¬ c.Precedes j i

variable {c : Circuit} {i j w : Nat}

theorem touches_iff : c.Touches i w ↔ w ∈ c.wires i := by
  constructor
  · rintro ⟨node, hnode, ⟨hlt, hmem⟩ | ⟨b, hlt, hmem, rfl⟩⟩
    · rw [wires_eq hnode]
      exact Node.mem_wires_of_mem_qubits hmem hlt
    · rw [wires_eq hnode]
      exact Node.mem_wires_of_mem_clbits hmem hlt
  · intro hw
    obtain ⟨node, hnode⟩ := node?_eq_some (lt_of_mem_wires hw).2
    rw [wires_eq hnode, Node.mem_wires_iff, Node.operands] at hw
    refine ⟨node, hnode, ?_⟩
    simp only [List.mem_append, List.mem_filter, List.mem_map, decide_eq_true_eq] at hw
    rcases hw with ⟨hmem, hlt⟩ | ⟨b, ⟨hmem, hlt⟩, rfl⟩
    · exact Or.inl ⟨hlt, hmem⟩
    · exact Or.inr ⟨b, hlt, hmem, rfl⟩

theorem wired_iff : c.Wired i ↔ c.wires i ≠ [] := by
  simp only [Wired, touches_iff, ne_eq, List.eq_nil_iff_forall_not_mem, not_forall, not_not]

theorem Wired.lt (h : c.Wired i) : i < c.size := by
  obtain ⟨w, hw⟩ := h
  exact (lt_of_mem_wires (touches_iff.1 hw)).2

theorem Precedes.wired (h : c.Precedes j i) : c.Wired j ∧ c.Wired i := by
  obtain ⟨-, w, hj, hi⟩ := h
  exact ⟨⟨w, hj⟩, ⟨w, hi⟩⟩

end Circuit

namespace Cursor

open Circuit

/-- Ask for a node; the state is a cursor with the nodes consumed so far. -/
def attempt (c : Circuit) (state : Cursor × List Nat) (i : Nat) : Option (Cursor × List Nat) :=
  (state.1.advance? c i).map fun answer =>
    (answer.2, if answer.1 then state.2 ++ [i] else state.2)

/-- Ask for one node after another, from the start. -/
def run (c : Circuit) (calls : List Nat) : Option (Cursor × List Nat) :=
  calls.foldlM (attempt c) (start c, [])

/-- The cursor has the rest of every wire unread, and the consumed nodes are in order. -/
structure Follows (c : Circuit) (cursor : Cursor) (consumed : List Nat) : Prop where
  left : Left c cursor consumed
  order : c.InOrder consumed

variable {c : Circuit} {cursor : Cursor} {consumed : List Nat} {i : Nat}

theorem follows_start (c : Circuit) : Follows c (start c) [] where
  left := left_start c (List.forall_mem_nil _)
  order := ⟨List.forall_mem_nil _, List.Pairwise.nil⟩

/-! ## One call -/

theorem advance?_eq (hi : i < c.size) :
    cursor.advance? c i =
      some (if cursor.leads (c.wires i) i then (true, cursor.dropFronts (c.wires i))
        else (false, cursor)) := by
  rw [advance?, wires?_eq_some hi, Option.map_some]

/-- **When a node is consumed**: it is open, and no node that precedes it is. -/
theorem Follows.leads_iff (h : Follows c cursor consumed) (hi : c.Wired i) :
    cursor.leads (c.wires i) i = true ↔ i ∉ consumed ∧ ∀ j, c.Precedes j i → j ∈ consumed := by
  have hleads : cursor.leads (c.wires i) i = true ↔
      ∀ w ∈ c.wires i, i ∉ consumed ∧ ∀ j, j < i → w ∈ c.wires j → j ∈ consumed := by
    rw [leads, List.all_eq_true]
    refine forall₂_congr fun w hw => ?_
    rw [beq_iff_eq, h.left.front_eq_some_iff, and_iff_right hw]
  rw [hleads]
  constructor
  · intro hall
    obtain ⟨w, hw⟩ := hi
    refine ⟨(hall w (touches_iff.1 hw)).1, ?_⟩
    rintro j ⟨hlt, w', hj, hi'⟩
    exact (hall w' (touches_iff.1 hi')).2 j hlt (touches_iff.1 hj)
  · rintro ⟨hopen, hearlier⟩ w hw
    exact ⟨hopen, fun j hlt hj =>
      hearlier j ⟨hlt, w, touches_iff.2 hj, touches_iff.2 hw⟩⟩

theorem Follows.exists_advance_iff (h : Follows c cursor consumed) (hi : c.Wired i) :
    (∃ next, cursor.advance? c i = some (true, next)) ↔
      i ∉ consumed ∧ ∀ j, c.Precedes j i → j ∈ consumed := by
  rw [← h.leads_iff hi, advance?_eq hi.lt]
  cases cursor.leads (c.wires i) i <;> simp

/-- A node that is consumed goes to the end of the list, wires or not. -/
theorem Follows.consume (h : Follows c cursor consumed)
    (hlead : cursor.leads (c.wires i) i = true) :
    Follows c (cursor.dropFronts (c.wires i)) (consumed ++ [i]) where
  left := by
    refine h.left.dropFronts fun w hw => ?_
    rw [leads, List.all_eq_true] at hlead
    exact beq_iff_eq.1 (hlead w hw)
  order := by
    by_cases hi : c.Wired i
    · obtain ⟨hopen, hearlier⟩ := (h.leads_iff hi).1 hlead
      refine h.order.append hopen fun w hw j hlt hj => ?_
      exact hearlier j ⟨hlt, w, touches_iff.2 hj, touches_iff.2 hw⟩
    · -- a node without wires may have been consumed before
      rw [wired_iff, not_not] at hi
      constructor
      · intro k hk w hw j hlt hj
        rcases List.mem_append.1 hk with hk | hk
        · exact List.mem_append_left _ (h.order.closed k hk w hw j hlt hj)
        · rw [List.mem_singleton.1 hk, hi] at hw
          exact absurd hw List.not_mem_nil
      · refine List.pairwise_append.2 ⟨h.order.ordered, List.pairwise_singleton _ _, ?_⟩
        intro k _ j hj w _ hw
        rw [List.mem_singleton.1 hj, hi] at hw
        exact absurd hw List.not_mem_nil

/-- **One call** is answered and keeps cursor and consumed nodes together. -/
theorem Follows.attempt (h : Follows c cursor consumed) (hi : i < c.size) :
    ∃ next more, Cursor.attempt c (cursor, consumed) i = some (next, more) ∧
      Follows c next more := by
  rw [Cursor.attempt, advance?_eq hi]
  cases hlead : cursor.leads (c.wires i) i with
  | true => exact ⟨_, _, rfl, h.consume hlead⟩
  | false => exact ⟨_, _, rfl, h⟩

/-! ## Whole runs -/

/-- **Every run** is answered and keeps cursor and consumed nodes together. -/
theorem Follows.foldlM_attempt {calls : List Nat} (h : Follows c cursor consumed)
    (hcalls : ∀ i ∈ calls, i < c.size) :
    ∃ next more, calls.foldlM (Cursor.attempt c) (cursor, consumed) = some (next, more) ∧
      Follows c next more := by
  induction calls generalizing cursor consumed with
  | nil => exact ⟨cursor, consumed, rfl, h⟩
  | cons i calls ih =>
    rw [List.forall_mem_cons] at hcalls
    obtain ⟨next, more, hattempt, hnext⟩ := h.attempt hcalls.1
    rw [List.foldlM_cons, hattempt]
    exact ih hnext hcalls.2

theorem exists_run {calls : List Nat} (hcalls : ∀ i ∈ calls, i < c.size) :
    ∃ cursor consumed, run c calls = some (cursor, consumed) ∧ Follows c cursor consumed :=
  (follows_start c).foldlM_attempt hcalls

/-- No node with a wire is consumed twice. -/
theorem Follows.count_le_one (h : Follows c cursor consumed) (hi : c.Wired i) :
    consumed.count i ≤ 1 := by
  obtain ⟨w, hw⟩ := hi
  rw [touches_iff] at hw
  by_contra hcount
  have hsub : [i, i].Sublist consumed :=
    (List.replicate_sublist_iff (a := i) (n := 2)).2 (by omega)
  have hpair := h.order.ordered.sublist hsub
  simp only [List.pairwise_cons, List.mem_singleton, forall_eq] at hpair
  exact absurd (hpair.1 w hw hw) (Nat.lt_irrefl i)

/-- **Nothing is unread** exactly if every node with a wire has been consumed. -/
theorem Follows.isDone_iff (h : Follows c cursor consumed) :
    cursor.isDone = true ↔ ∀ i, c.Wired i → i ∈ consumed := by
  -- what is unread on a wire is the open part of its stream
  have hdone : cursor.isDone = true ↔
      ∀ w, w < c.numWires → (c.stream w).filter (· ∉ consumed) = [] := by
    rw [isDone, List.all_eq_true, fronts, List.forall_mem_map]
    simp only [List.mem_range, h.left.positions_size]
    refine forall₂_congr fun w hw => ?_
    rw [front_eq_head? (h.left.unread w hw), Option.isNone_iff_eq_none, List.head?_eq_none_iff]
  rw [hdone]
  constructor
  · rintro hempty i ⟨w, hw⟩
    rw [touches_iff] at hw
    by_contra hopen
    have hmem : i ∈ (c.stream w).filter (· ∉ consumed) :=
      List.mem_filter.2 ⟨mem_stream_iff.2 hw, decide_eq_true hopen⟩
    rw [hempty w (lt_of_mem_wires hw).1] at hmem
    exact absurd hmem List.not_mem_nil
  · intro hall w _
    refine List.filter_eq_nil_iff.2 fun i hi => ?_
    rw [decide_eq_true_eq, not_not]
    exact hall i ⟨w, touches_iff.2 (mem_stream_iff.1 hi)⟩

/-- While anything is unread there is a first open node with a wire. -/
theorem Follows.exists_first (h : Follows c cursor consumed) (hopen : cursor.isDone = false) :
    ∃ i, c.Wired i ∧ i ∉ consumed ∧ ∀ j, j < i → c.Wired j → j ∈ consumed := by
  have hex : ∃ i, c.Wired i ∧ i ∉ consumed := by
    by_contra hnone
    push Not at hnone
    rw [h.isDone_iff.2 hnone] at hopen
    cases hopen
  classical
  refine ⟨Nat.find hex, (Nat.find_spec hex).1, (Nat.find_spec hex).2, fun j hj hwired => ?_⟩
  by_contra hjopen
  exact Nat.find_min hex hj ⟨hwired, hjopen⟩

/-! ## Linear extensions -/

/-- The nodes that a run consumes are in order, so if none is left they are a linear extension. -/
theorem Follows.linearExtension (h : Follows c cursor consumed) (hdone : cursor.isDone = true)
    (hwired : ∀ i ∈ consumed, c.Wired i) : c.LinearExtension consumed where
  nodup := by
    rw [List.nodup_iff_count_le_one]
    intro i
    by_cases hi : i ∈ consumed
    · exact h.count_le_one (hwired i hi)
    · rw [List.count_eq_zero.2 hi]
      exact Nat.zero_le 1
  mem_iff := fun i => ⟨hwired i, h.isDone_iff.1 hdone i⟩
  ordered := by
    refine h.order.ordered.imp ?_
    rintro i j hlt ⟨hji, w, hj, hi⟩
    have := hlt w (touches_iff.1 hi) (touches_iff.1 hj)
    omega

/-- The calls of a linear extension are all answered with yes. -/
theorem Follows.foldlM_of_linearExtension {order rest : List Nat} (hext : c.LinearExtension order)
    (h : Follows c cursor consumed) (hsplit : order = consumed ++ rest) :
    ∃ next, rest.foldlM (Cursor.attempt c) (cursor, consumed) = some (next, order) ∧
      Follows c next order := by
  induction rest generalizing cursor consumed with
  | nil =>
    rw [List.append_nil] at hsplit
    subst hsplit
    exact ⟨cursor, rfl, h⟩
  | cons i rest ih =>
    have hmem : i ∈ order := hsplit ▸ List.mem_append_right _ List.mem_cons_self
    have hi := (hext.mem_iff i).1 hmem
    have hnodup := hsplit ▸ hext.nodup
    have hordered := hsplit ▸ hext.ordered
    rw [List.pairwise_append] at hordered
    have hlead : cursor.leads (c.wires i) i = true := by
      refine (h.leads_iff hi).2 ⟨?_, fun j hj => ?_⟩
      · intro hold
        exact (List.nodup_append.1 hnodup).2.2 i hold i List.mem_cons_self rfl
      · -- a node that precedes `i` is listed, and not after `i`
        have hlisted := (hext.mem_iff j).2 hj.wired.1
        rw [hsplit, List.mem_append, List.mem_cons] at hlisted
        rcases hlisted with hold | rfl | hlater
        · exact hold
        · exact absurd hj.1 (Nat.lt_irrefl j)
        · exact absurd hj ((List.pairwise_cons.1 hordered.2.1).1 j hlater)
    obtain ⟨next, hrest, hnext⟩ := ih (h.consume hlead) (by rw [hsplit, List.append_assoc]; rfl)
    refine ⟨next, ?_, hnext⟩
    rw [List.foldlM_cons, Cursor.attempt, advance?_eq hi.lt, hlead]
    exact hrest

/-- **The runs that consume nodes with wires at every call and leave nothing unread** are the linear
extensions. -/
theorem run_eq_iff_linearExtension {order : List Nat} :
    ((∀ i ∈ order, c.Wired i) ∧
      ∃ cursor, run c order = some (cursor, order) ∧ cursor.isDone = true) ↔
      c.LinearExtension order := by
  constructor
  · rintro ⟨hwired, cursor, hrun, hdone⟩
    obtain ⟨cursor', consumed, hrun', hfollows⟩ := exists_run fun i hi => (hwired i hi).lt
    rw [hrun] at hrun'
    cases hrun'
    exact hfollows.linearExtension hdone hwired
  · intro hext
    obtain ⟨cursor, hrun, hfollows⟩ := (follows_start c).foldlM_of_linearExtension hext rfl
    refine ⟨fun i hi => (hext.mem_iff i).1 hi, cursor, hrun, hfollows.isDone_iff.2 ?_⟩
    exact fun i hi => (hext.mem_iff i).2 hi

/-- **Runs of a cursor.** After any calls, a node with a wire can be consumed exactly if it is open
and no node that precedes it is; a call in vain changes nothing; no node with a wire is consumed
twice; while anything is unread, the first open node with a wire can be consumed; and nothing is
unread exactly if all nodes with wires are consumed. The calls that consume all of these, each call
one, are the linear extensions of the order on the wires. -/
theorem run_consumes_in_wire_order (c : Circuit) {calls : List Nat}
    (hcalls : ∀ i ∈ calls, i < c.size) :
    (∃ cursor consumed, run c calls = some (cursor, consumed) ∧
      (∀ i, c.Wired i → ((∃ next, cursor.advance? c i = some (true, next)) ↔
        i ∉ consumed ∧ ∀ j, c.Precedes j i → j ∈ consumed)) ∧
      (∀ i, i < c.size → ∃ moved next, cursor.advance? c i = some (moved, next) ∧
        (moved = false → next = cursor)) ∧
      (∀ i, c.Wired i → consumed.count i ≤ 1) ∧
      (cursor.isDone = false → ∃ i next, c.Wired i ∧ i ∉ consumed ∧
        (∀ j, j < i → c.Wired j → j ∈ consumed) ∧ cursor.advance? c i = some (true, next)) ∧
      (cursor.isDone = true ↔ ∀ i, c.Wired i → i ∈ consumed)) ∧
    ∀ order, ((∀ i ∈ order, c.Wired i) ∧
      ∃ cursor, run c order = some (cursor, order) ∧ cursor.isDone = true) ↔
      c.LinearExtension order := by
  refine ⟨?_, fun order => run_eq_iff_linearExtension⟩
  obtain ⟨cursor, consumed, hrun, h⟩ := exists_run hcalls
  refine ⟨cursor, consumed, hrun, fun i hi => h.exists_advance_iff hi, ?_,
    fun i hi => h.count_le_one hi, ?_, h.isDone_iff⟩
  · intro i hi
    rw [advance?_eq hi]
    cases cursor.leads (c.wires i) i with
    | true => exact ⟨true, _, rfl, fun hfalse => Bool.noConfusion hfalse⟩
    | false => exact ⟨false, cursor, rfl, fun _ => rfl⟩
  · intro hopen
    obtain ⟨i, hi, hfresh, hfirst⟩ := h.exists_first hopen
    obtain ⟨next, hnext⟩ := (h.exists_advance_iff hi).2
      ⟨hfresh, fun j hj => hfirst j hj.1 hj.wired.1⟩
    exact ⟨i, next, hi, hfresh, hfirst, hnext⟩

/-- Six statements, one of them on a qubit that is not declared, and calls that come too early, for
a second time or for the statement without wires. The barrier can then be consumed and the second
`cx` not yet. -/
theorem run_consumes_in_wire_order_barrier :
    let p : Program := ⟨3, 1,
      [.gate "h" [0], .cx 0 1, .barrier [0, 1], .gate "x" [7], .cx 1 2, .measure 2 0]⟩
    let calls := [1, 0, 3, 1, 1, 4, 3]
    (∀ i ∈ calls, i < p.circuit.size) ∧
    ∃ cursor, run p.circuit calls = some (cursor, [0, 3, 1, 3]) ∧ cursor.isDone = false ∧
      (∃ next, cursor.advance? p.circuit 2 = some (true, next)) ∧
      ¬ ∃ next, cursor.advance? p.circuit 4 = some (true, next) := by
  intro p calls
  have hcalls : ∀ i ∈ calls, i < p.circuit.size := by decide
  have hbarrier : p.circuit.Touches 2 1 := ⟨_, rfl, Or.inl (by decide)⟩
  have hsecond : p.circuit.Touches 4 1 := ⟨_, rfl, Or.inl (by decide)⟩
  obtain ⟨⟨cursor, consumed, hrun, hadvance, -, -, -, hdone⟩, -⟩ :=
    run_consumes_in_wire_order p.circuit hcalls
  have hconsumed : (run p.circuit calls).map Prod.snd = some [0, 3, 1, 3] := by decide +kernel
  rw [hrun] at hconsumed
  cases hconsumed
  refine ⟨hcalls, cursor, hrun, ?_, (hadvance 2 ⟨1, hbarrier⟩).2 ⟨by decide, ?_⟩, ?_⟩
  · rw [← Bool.not_eq_true, hdone]
    intro hall
    exact absurd (hall 2 ⟨1, hbarrier⟩) (by decide)
  · rintro j ⟨hlt, -⟩
    interval_cases j <;> decide
  · rw [hadvance 4 ⟨1, hsecond⟩]
    rintro ⟨-, hall⟩
    exact absurd (hall 2 ⟨by decide, 1, hbarrier, hsecond⟩) (by decide)

end Cursor

end QubitAllocation
