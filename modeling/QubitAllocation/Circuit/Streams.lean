import QubitAllocation.Circuit.Program

/-!
# Streams

A node stands on the wires of its operands. One pass over the nodes, in program order, notes the
wires of each and puts each at the end of the streams of its wires (`Streams.ofNodes`); the stream
of a wire then has the nodes that touch the wire, in program order (`Streams.agree_ofNodes`).
-/

namespace QubitAllocation

/-- A statement as a circuit sees it. -/
structure Node where
  callPoint : Nat
  name : String
  qubits : List Nat
  clbits : List Nat
  deriving DecidableEq, Repr

/-- Put a number into an ascending list. -/
def insertAscending (i : Nat) : List Nat → List Nat
  | [] => [i]
  | j :: js => if i < j then i :: j :: js else if i = j then j :: js else j :: insertAscending i js

theorem mem_insertAscending_iff {i x : Nat} {l : List Nat} :
    x ∈ insertAscending i l ↔ x = i ∨ x ∈ l := by
  induction l with
  | nil => simp [insertAscending]
  | cons j js ih =>
    rw [insertAscending]
    split
    · exact List.mem_cons
    · split
      next heq => simp [heq]
      · rw [List.mem_cons, ih, List.mem_cons]
        exact or_left_comm

theorem pairwise_insertAscending {i : Nat} {l : List Nat} (h : l.Pairwise (· < ·)) :
    (insertAscending i l).Pairwise (· < ·) := by
  induction l with
  | nil => exact List.pairwise_singleton _ _
  | cons j js ih =>
    rw [insertAscending]
    have hcons := List.pairwise_cons.1 h
    split
    next hlt =>
      refine List.pairwise_cons.2 ⟨fun x hx => ?_, h⟩
      rcases List.mem_cons.1 hx with rfl | hx
      · exact hlt
      · exact Nat.lt_trans hlt (hcons.1 x hx)
    · split
      · exact h
      · refine List.pairwise_cons.2 ⟨fun x hx => ?_, ih hcons.2⟩
        rcases mem_insertAscending_iff.1 hx with rfl | hx
        · omega
        · exact hcons.1 x hx

namespace Node

/-- The wires of a node's operands; operands that are not declared have none. -/
def operands (numQubits numClbits : Nat) (node : Node) : List Nat :=
  node.qubits.filter (· < numQubits) ++ (node.clbits.filter (· < numClbits)).map (numQubits + ·)

/-- The wires of a node, ascending and without repetition. -/
def wires (numQubits numClbits : Nat) (node : Node) : List Nat :=
  (node.operands numQubits numClbits).foldr insertAscending []

theorem pairwise_wires (numQubits numClbits : Nat) (node : Node) :
    (node.wires numQubits numClbits).Pairwise (· < ·) := by
  rw [wires]
  induction node.operands numQubits numClbits with
  | nil => exact List.Pairwise.nil
  | cons x xs ih => exact pairwise_insertAscending ih

theorem nodup_wires (numQubits numClbits : Nat) (node : Node) :
    (node.wires numQubits numClbits).Nodup :=
  (node.pairwise_wires numQubits numClbits).imp fun h => Nat.ne_of_lt h

end Node

/-- The nodes that touch a wire, in program order, read off the wires of all nodes. -/
def touching (wireTable : Array (List Nat)) (w : Nat) : List Nat :=
  (List.range wireTable.size).filter fun i => (wireTable.getD i []).contains w

theorem touching_push (wireTable : Array (List Nat)) (wires : List Nat) (w : Nat) :
    touching (wireTable.push wires) w =
      touching wireTable w ++ if w ∈ wires then [wireTable.size] else [] := by
  have hbefore : (List.range wireTable.size).filter (fun i =>
      ((wireTable.push wires).getD i []).contains w) = touching wireTable w := by
    refine List.filter_congr fun i hi => ?_
    have hlt := List.mem_range.1 hi
    rw [Array.getD_eq_getD_getElem?, Array.getElem?_push, if_neg (Nat.ne_of_lt hlt),
      ← Array.getD_eq_getD_getElem?]
  have hlast : (wireTable.push wires).getD wireTable.size [] = wires := by
    rw [Array.getD_eq_getD_getElem?, Array.getElem?_push, if_pos rfl, Option.getD_some]
  rw [touching, Array.size_push, List.range_succ, List.filter_append, hbefore]
  congr 1
  by_cases hw : w ∈ wires
  · rw [if_pos hw, List.filter_cons_of_pos (by rw [hlast, List.contains_iff_mem]; exact hw),
      List.filter_nil]
  · rw [if_neg hw, List.filter_cons_of_neg (by rw [hlast, List.contains_iff_mem]; exact hw),
      List.filter_nil]

/-! ## One pass over the nodes -/

/-- The wires of the nodes so far, and the nodes so far on each wire. -/
structure Streams where
  wireTable : Array (List Nat)
  streamTable : Array (Array Nat)

namespace Streams

/-- No node on any of the wires. -/
def none (numWires : Nat) : Streams := ⟨#[], Array.replicate numWires #[]⟩

/-- Put the next node, which has the given wires, at the end of their streams. -/
def push (s : Streams) (wires : List Nat) : Streams where
  wireTable := s.wireTable.push wires
  streamTable :=
    wires.foldl (fun table w => table.modify w (·.push s.wireTable.size)) s.streamTable

/-- The streams of nodes in program order. -/
def ofNodes (numQubits numClbits : Nat) (nodes : List Node) : Streams :=
  nodes.foldl (fun s node => s.push (node.wires numQubits numClbits)) (none (numQubits + numClbits))

/-- Each wire has a stream, of the nodes that touch it. -/
structure Agree (numWires : Nat) (s : Streams) : Prop where
  size_eq : s.streamTable.size = numWires
  toList_eq : ∀ w stream, s.streamTable[w]? = some stream → stream.toList = touching s.wireTable w

theorem agree_none (numWires : Nat) : Agree numWires (none numWires) where
  size_eq := Array.size_replicate
  toList_eq := by
    intro w stream h
    rw [none, Array.getElem?_replicate] at h
    split at h
    · cases h
      rfl
    · cases h

theorem size_foldl_push (wires : List Nat) (table : Array (Array Nat)) (i : Nat) :
    (wires.foldl (fun table w => table.modify w (·.push i)) table).size = table.size := by
  induction wires generalizing table with
  | nil => rfl
  | cons x xs ih => exact (ih _).trans Array.size_modify

theorem getElem?_foldl_push {wires : List Nat} (hnd : wires.Nodup) (table : Array (Array Nat))
    (i w : Nat) :
    (wires.foldl (fun table w => table.modify w (·.push i)) table)[w]? =
      if w ∈ wires then (table[w]?).map (·.push i) else table[w]? := by
  induction wires generalizing table with
  | nil => rfl
  | cons x xs ih =>
    rw [List.nodup_cons] at hnd
    rw [List.foldl_cons, ih hnd.2, Array.getElem?_modify]
    by_cases hxw : x = w
    · subst hxw
      rw [if_neg hnd.1, if_pos rfl, if_pos List.mem_cons_self]
    · simp only [if_neg hxw, List.mem_cons, Ne.symm hxw, false_or]

/-- **A node that is put on its wires joins the nodes that touch them.** -/
theorem Agree.push {numWires : Nat} {s : Streams} (h : Agree numWires s) {wires : List Nat}
    (hnd : wires.Nodup) : Agree numWires (s.push wires) where
  size_eq := (size_foldl_push wires _ _).trans h.size_eq
  toList_eq := by
    intro w stream hstream
    rw [Streams.push, getElem?_foldl_push hnd] at hstream
    rw [Streams.push, touching_push]
    split at hstream
    next hw =>
      obtain ⟨before, hbefore, rfl⟩ := Option.map_eq_some_iff.1 hstream
      rw [if_pos hw, Array.toList_push, h.toList_eq w before hbefore]
    next hw => rw [if_neg hw, List.append_nil, h.toList_eq w stream hstream]

theorem agree_foldl_push {numWires : Nat} {s : Streams} (h : Agree numWires s)
    (numQubits numClbits : Nat) (nodes : List Node) :
    Agree numWires (nodes.foldl (fun s node => s.push (node.wires numQubits numClbits)) s) := by
  induction nodes generalizing s with
  | nil => exact h
  | cons node nodes ih => exact ih (h.push (node.nodup_wires numQubits numClbits))

theorem agree_ofNodes (numQubits numClbits : Nat) (nodes : List Node) :
    Agree (numQubits + numClbits) (ofNodes numQubits numClbits nodes) :=
  agree_foldl_push (agree_none _) numQubits numClbits nodes

/-- The pass notes the wires of each node. -/
theorem wireTable_ofNodes (numQubits numClbits : Nat) (nodes : List Node) :
    (ofNodes numQubits numClbits nodes).wireTable =
      nodes.toArray.map (Node.wires numQubits numClbits) := by
  have hfold : ∀ s : Streams,
      (nodes.foldl (fun s node => s.push (node.wires numQubits numClbits)) s).wireTable.toList =
        s.wireTable.toList ++ nodes.map (Node.wires numQubits numClbits) := by
    induction nodes with
    | nil => simp
    | cons node nodes ih =>
      intro s
      rw [List.foldl_cons, ih, push, Array.toList_push, List.append_assoc, List.map_cons,
        List.singleton_append]
  apply Array.toList_inj.1
  rw [ofNodes, hfold, Array.toList_map]
  rfl

end Streams

end QubitAllocation
