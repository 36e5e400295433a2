import QubitAllocation.Circuit.Wires
import Mathlib.Tactic

/-!
# Wires and cursors

The wires of a node are its declared operands, each once (`Node.mem_wires_iff`), and the stream of a
wire has the nodes that touch it in program order (`Circuit.stream_eq`).

What is unread on a wire is its stream from the cursor's position on (`Cursor.unread`): the front is
the head of it, and moving on leaves its tail. `Cursor.Left c cursor done` says what is unread once
the nodes `done` have been consumed: on every wire its stream without them. The front of a wire is
then its first node that is not done (`Cursor.Left.front_eq_some_iff`), so the first node of the
program that is not done is at the front of all its wires (`Cursor.Left.front_of_least`), and
consuming a node that leads all its wires adds it to what is done (`Cursor.Left.dropFronts`).
-/

set_option autoImplicit false

namespace QubitAllocation

/-! ## The wires of a node -/

namespace Node

variable {numQubits numClbits : Nat} {node : Node}

theorem mem_wires_iff {w : Nat} :
    w ∈ node.wires numQubits numClbits ↔ w ∈ node.operands numQubits numClbits := by
  rw [wires]
  induction node.operands numQubits numClbits with
  | nil => rfl
  | cons x xs ih => rw [List.foldr_cons, mem_insertAscending_iff, ih, List.mem_cons]

theorem lt_of_mem_operands {w : Nat} (h : w ∈ node.operands numQubits numClbits) :
    w < numQubits + numClbits := by
  rw [operands, List.mem_append, List.mem_filter, List.mem_map] at h
  rcases h with ⟨-, hw⟩ | ⟨b, hb, rfl⟩
  · rw [decide_eq_true_eq] at hw
    omega
  · have hlt := (List.mem_filter.1 hb).2
    rw [decide_eq_true_eq] at hlt
    omega

theorem mem_wires_of_mem_qubits {q : Nat} (h : q ∈ node.qubits) (hlt : q < numQubits) :
    q ∈ node.wires numQubits numClbits := by
  rw [mem_wires_iff, operands, List.mem_append, List.mem_filter, decide_eq_true_eq]
  exact Or.inl ⟨h, hlt⟩

theorem mem_wires_of_mem_clbits {b : Nat} (h : b ∈ node.clbits) (hlt : b < numClbits) :
    numQubits + b ∈ node.wires numQubits numClbits := by
  rw [mem_wires_iff, operands, List.mem_append, List.mem_map]
  exact Or.inr ⟨b, List.mem_filter.2 ⟨h, decide_eq_true hlt⟩, rfl⟩

end Node

namespace Circuit

variable {c : Circuit} {i w : Nat}

theorem wires?_eq (c : Circuit) (i : Nat) :
    c.wires? i = (c.node? i).map (Node.wires c.numQubits c.numClbits) := by
  rw [wires?, node?, c.wireTable_eq, Array.getElem?_map]

theorem node?_eq_some (h : i < c.size) : ∃ node, c.node? i = some node :=
  ⟨c.nodes[i], Array.getElem?_eq_getElem h⟩

theorem lt_of_node? {node : Node} (h : c.node? i = some node) : i < c.size :=
  (Array.getElem?_eq_some_iff.1 h).1

theorem wires_eq {node : Node} (h : c.node? i = some node) :
    c.wires i = node.wires c.numQubits c.numClbits := by
  rw [wires, wires?_eq, h]
  rfl

theorem wires?_eq_some (h : i < c.size) : c.wires? i = some (c.wires i) := by
  obtain ⟨node, hnode⟩ := node?_eq_some h
  rw [wires_eq hnode, wires?_eq, hnode]
  rfl

theorem pairwise_wires (c : Circuit) (i : Nat) : (c.wires i).Pairwise (· < ·) := by
  rw [wires, wires?_eq]
  cases c.node? i with
  | none => exact List.Pairwise.nil
  | some node => exact node.pairwise_wires _ _

theorem nodup_wires (c : Circuit) (i : Nat) : (c.wires i).Nodup :=
  (c.pairwise_wires i).imp fun h => Nat.ne_of_lt h

theorem lt_of_mem_wires (h : w ∈ c.wires i) : w < c.numWires ∧ i < c.size := by
  cases hnode : c.node? i with
  | none =>
    rw [wires, wires?_eq, hnode] at h
    exact absurd h List.not_mem_nil
  | some node =>
    rw [wires_eq hnode, Node.mem_wires_iff] at h
    exact ⟨Node.lt_of_mem_operands h, lt_of_node? hnode⟩

/-- A program has a circuit exactly if its wires can be counted in 32 bits. -/
theorem circuit?_eq_some_iff {p : Program} :
    p.circuit? = some c ↔ p.numQubits + p.numClbits < 2 ^ 32 ∧ p.circuit = c := by
  have hbound : p.circuit.numWires ≤ Text.wordMax ↔ p.numQubits + p.numClbits < 2 ^ 32 := by
    rw [← Nat.lt_succ_iff]
    rfl
  rw [Program.circuit?, Option.ite_none_right_eq_some, hbound, Option.some.injEq]

/-- The sums that number the wires of classical bits fit 32 bits as well. -/
theorem lt_of_circuit? {p : Program} (hc : p.circuit? = some c) (h : w ∈ c.wires i) :
    w < 2 ^ 32 := by
  obtain ⟨hbound, rfl⟩ := circuit?_eq_some_iff.1 hc
  exact (lt_of_mem_wires h).1.trans hbound

/-- The stream of a wire has the nodes that touch it, in program order. -/
theorem stream_eq (c : Circuit) (w : Nat) :
    c.stream w = (List.range c.size).filter fun i => (c.wires i).contains w := by
  have htouching : touching c.wireTable w =
      (List.range c.size).filter fun i => (c.wires i).contains w := by
    have hsize : c.wireTable.size = c.size := by rw [c.wireTable_eq, Array.size_map, size]
    rw [touching, hsize]
    refine List.filter_congr fun i _ => ?_
    rw [wires, wires?, Array.getD_eq_getD_getElem?]
  rw [stream, ← htouching, Array.getD_eq_getD_getElem?]
  cases hstream : c.streamTable[w]? with
  | some stream => exact c.agree.toList_eq w stream hstream
  | none =>
    -- a number beyond the wires is no wire of any node
    have hout : c.numWires ≤ w := by
      rw [numWires, ← c.agree.size_eq]
      exact Array.getElem?_eq_none_iff.1 hstream
    rw [htouching, eq_comm, Option.getD_none]
    refine List.filter_eq_nil_iff.2 fun i _ hw => ?_
    have hlt := (lt_of_mem_wires (List.contains_iff_mem.1 hw)).1
    omega

theorem mem_stream_iff : i ∈ c.stream w ↔ w ∈ c.wires i := by
  rw [stream_eq, List.mem_filter, List.mem_range, List.contains_iff_mem]
  exact ⟨fun h => h.2, fun h => ⟨(lt_of_mem_wires h).2, h⟩⟩

theorem nodup_stream (c : Circuit) (w : Nat) : (c.stream w).Nodup := by
  rw [stream_eq]
  exact List.nodup_range.filter _

/-- A node on two different declared qubits has two wires at least. -/
theorem two_le_arity {node : Node} (hnode : c.node? i = some node) {a b : Nat}
    (ha : a ∈ node.qubits) (hb : b ∈ node.qubits) (hne : a ≠ b) (hal : a < c.numQubits)
    (hbl : b < c.numQubits) : 2 ≤ c.arity i := by
  have hsub : [a, b].Subperm (c.wires i) := by
    rw [wires_eq hnode]
    refine List.Nodup.subperm (by simpa using hne) ?_
    intro q hq
    rcases List.mem_cons.1 hq with rfl | hq
    · exact Node.mem_wires_of_mem_qubits ha hal
    · rw [List.mem_singleton.1 hq]
      exact Node.mem_wires_of_mem_qubits hb hbl
  exact hsub.length_le

end Circuit

/-! ## Cursors -/

namespace Cursor

/-- What is unread on a wire: its stream from the position on. -/
def unread (cursor : Cursor) (w : Nat) : Option (List Nat) := do
  let stream ← cursor.streams[w]?
  let position ← cursor.positions[w]?
  return stream.toList.drop position

/-- With the nodes `done` consumed, every wire has the rest of its stream unread. -/
structure Left (c : Circuit) (cursor : Cursor) (done : List Nat) : Prop where
  streams_size : cursor.streams.size = c.numWires
  positions_size : cursor.positions.size = c.numWires
  unread : ∀ w, w < c.numWires → cursor.unread w = some ((c.stream w).filter (· ∉ done))

variable {c : Circuit} {cursor : Cursor} {done : List Nat} {i w : Nat}

/-- The front of a wire is the head of what is unread on it. -/
theorem front?_eq (cursor : Cursor) (w : Nat) :
    cursor.front? w = (cursor.unread w).map List.head? := by
  unfold front? unread
  cases cursor.streams[w]? with
  | none => rfl
  | some stream =>
    cases cursor.positions[w]? with
    | none => rfl
    | some position =>
      show some stream[position]? = some (stream.toList.drop position).head?
      rw [List.head?_drop, Array.getElem?_toList]

theorem front_eq_head? {nodes : List Nat} (h : cursor.unread w = some nodes) :
    cursor.front w = nodes.head? := by
  rw [front, front?_eq, h, Option.map_some, Option.join_some]

theorem front_of_le (h : cursor.positions.size ≤ w) : cursor.front w = none := by
  rw [front, front?, Array.getElem?_eq_none h]
  cases cursor.streams[w]? <;> rfl

theorem left_start (c : Circuit) (h : ∀ i ∈ done, c.wires i = []) : Left c (.start c) done where
  streams_size := c.agree.size_eq
  positions_size := Array.size_replicate
  unread := by
    intro w hw
    have hnone : (c.stream w).filter (· ∉ done) = c.stream w := by
      rw [List.filter_eq_self]
      intro i hi
      rw [decide_eq_true_eq]
      intro hdone
      rw [Circuit.mem_stream_iff, h i hdone] at hi
      exact absurd hi List.not_mem_nil
    have hlt : w < c.streamTable.size := by rwa [c.agree.size_eq]
    rw [hnone, Cursor.unread, start, Circuit.stream, Array.getD_eq_getD_getElem?,
      Array.getElem?_eq_getElem hlt, Array.getElem?_replicate, if_pos hw]
    rfl

/-- The front of a wire is the first of its nodes that is not done. -/
theorem Left.front_eq_some_iff (h : Left c cursor done) :
    cursor.front w = some i ↔
      w ∈ c.wires i ∧ i ∉ done ∧ ∀ j, j < i → w ∈ c.wires j → j ∈ done := by
  by_cases hw : w < c.numWires
  · have hfront : cursor.front w = (List.range c.size).find? fun i =>
        decide (i ∉ done) && (c.wires i).contains w := by
      rw [front_eq_head? (h.unread w hw), Circuit.stream_eq, List.filter_filter,
        List.head?_filter]
    rw [hfront, List.find?_range_eq_some]
    simp only [Bool.and_eq_true, List.contains_iff_mem, decide_eq_true_eq, List.mem_range,
      Bool.not_eq_true', ← Bool.not_eq_true]
    constructor
    · rintro ⟨⟨hnot, hmem⟩, -, hfirst⟩
      refine ⟨hmem, hnot, fun j hj hwj => ?_⟩
      by_contra hjd
      exact hfirst j hj ⟨hjd, hwj⟩
    · rintro ⟨hmem, hnot, hfirst⟩
      exact ⟨⟨hnot, hmem⟩, (Circuit.lt_of_mem_wires hmem).2,
        fun j hj hwj => hwj.1 (hfirst j hj hwj.2)⟩
  · have hfront : cursor.front w = none := front_of_le (by rw [h.positions_size]; omega)
    rw [hfront]
    constructor
    · intro hnone
      cases hnone
    · rintro ⟨hmem, -, -⟩
      exact absurd (Circuit.lt_of_mem_wires hmem).1 hw

/-- The first node of the program that is not done is at the front of all its wires. -/
theorem Left.front_of_least (h : Left c cursor done) (hnot : i ∉ done)
    (hleast : ∀ j, j < i → j ∈ done) (hw : w ∈ c.wires i) : cursor.front w = some i :=
  h.front_eq_some_iff.2 ⟨hw, hnot, fun j hj _ => hleast j hj⟩

/-- A wire with a node that is not done has a node at its front, that one or an earlier one. -/
theorem Left.exists_front (h : Left c cursor done) (hw : w ∈ c.wires i) (hnot : i ∉ done) :
    ∃ j, j ≤ i ∧ cursor.front w = some j := by
  have hopen : ∃ j, w ∈ c.wires j ∧ j ∉ done := ⟨i, hw, hnot⟩
  classical
  obtain ⟨hmem, hfresh⟩ := Nat.find_spec hopen
  refine ⟨Nat.find hopen, Nat.find_min' hopen ⟨hw, hnot⟩, h.front_eq_some_iff.2 ⟨hmem, hfresh, ?_⟩⟩
  intro j hj hwj
  by_contra hjd
  exact Nat.find_min hopen hj ⟨hwj, hjd⟩

theorem size_positions_dropFronts (cursor : Cursor) (wires : List Nat) :
    (cursor.dropFronts wires).positions.size = cursor.positions.size := by
  show (wires.foldl _ cursor.positions).size = _
  generalize cursor.positions = positions
  induction wires generalizing positions with
  | nil => rfl
  | cons x xs ih => exact (ih _).trans Array.size_modify

theorem getElem?_positions_dropFronts {wires : List Nat} (hnd : wires.Nodup) (w : Nat) :
    (cursor.dropFronts wires).positions[w]? =
      if w ∈ wires then (cursor.positions[w]?).map (· + 1) else cursor.positions[w]? := by
  show (wires.foldl _ cursor.positions)[w]? = _
  generalize cursor.positions = positions
  induction wires generalizing positions with
  | nil => rfl
  | cons x xs ih =>
    rw [List.nodup_cons] at hnd
    rw [List.foldl_cons, ih hnd.2, Array.getElem?_modify]
    by_cases hxw : x = w
    · subst hxw
      rw [if_neg hnd.1, if_pos rfl, if_pos List.mem_cons_self]
    · simp only [if_neg hxw, List.mem_cons, Ne.symm hxw, false_or]

/-- Moving on drops the first node of what is unread on the wires. -/
theorem unread_dropFronts {wires : List Nat} (hnd : wires.Nodup) (w : Nat) :
    (cursor.dropFronts wires).unread w =
      if w ∈ wires then (cursor.unread w).map List.tail else cursor.unread w := by
  have hstreams : (cursor.dropFronts wires).streams = cursor.streams := rfl
  rw [Cursor.unread, Cursor.unread, hstreams, getElem?_positions_dropFronts hnd]
  by_cases hw : w ∈ wires
  · rw [if_pos hw, if_pos hw]
    cases cursor.streams[w]? with
    | none => rfl
    | some stream =>
      cases cursor.positions[w]? with
      | none => rfl
      | some position =>
        show some (stream.toList.drop (position + 1)) = some (stream.toList.drop position).tail
        rw [List.tail_drop]
  · rw [if_neg hw, if_neg hw]

/-- **Consuming a node** that leads all its wires adds it to what is done. -/
theorem Left.dropFronts (h : Left c cursor done)
    (hlead : ∀ w ∈ c.wires i, cursor.front w = some i) :
    Left c (cursor.dropFronts (c.wires i)) (done ++ [i]) where
  streams_size := h.streams_size
  positions_size := by rw [size_positions_dropFronts, h.positions_size]
  unread := by
    intro w hw
    have hsplit : (c.stream w).filter (· ∉ done ++ [i]) =
        ((c.stream w).filter (· ∉ done)).filter (· ≠ i) := by
      rw [List.filter_filter]
      apply List.filter_congr
      intro j _
      simp [and_comm]
    have hnd := (c.nodup_stream w).filter (· ∉ done)
    rw [unread_dropFronts (c.nodup_wires i), h.unread w hw, hsplit]
    by_cases hmem : w ∈ c.wires i
    · -- the node is the head of what is unread, and it occurs there once
      have hfront := hlead w hmem
      rw [front_eq_head? (h.unread w hw)] at hfront
      obtain ⟨rest, hrest⟩ := List.head?_eq_some_iff.1 hfront
      rw [hrest, List.nodup_cons] at hnd
      rw [if_pos hmem, hrest, Option.map_some, List.tail_cons, List.filter_cons_of_neg (by simp),
        List.filter_eq_self.2]
      intro j hj
      rw [decide_eq_true_eq]
      rintro rfl
      exact hnd.1 hj
    · have hsame : ((c.stream w).filter (· ∉ done)).filter (· ≠ i) =
          (c.stream w).filter (· ∉ done) := by
        refine List.filter_eq_self.2 fun j hj => ?_
        rw [decide_eq_true_eq]
        rintro rfl
        exact hmem (Circuit.mem_stream_iff.1 (List.mem_filter.1 hj).1)
      rw [if_neg hmem, hsame]

end Cursor

end QubitAllocation
