import QubitAllocation.Device.Basic
import Mathlib.Tactic

/-!
# Couplings

A device is built if its edges are valid, and keeps the first occurrence of each
(`Device.edges_of_build`). Its tables answer for this edge list. The successors of a qubit are the
targets of the edges that leave it, in edge order (`Device.successors_eq`), and the same holds of
predecessors, so the questions about single edges come down to membership in the edge list
(`Device.hasEdge_iff`, `Device.isReverseEdge_iff`). `Device.Coupled` forgets directions; the
neighbours of a qubit are exactly the qubits coupled with it (`Device.mem_neighbours_iff`), each
listed once (`Device.nodup_neighbours`), and `Device.couplings` lists each coupled pair once, lower
qubit first.
-/

set_option autoImplicit false

namespace QubitAllocation

/-! ## What is kept of the edges given -/

theorem Links.kept_foldl_add {size : Nat} {l : Links} (h : l.Agree size)
    (edges : List (Nat × Nat)) :
    (edges.foldl add l).kept.toList =
      l.kept.toList ++ (edges.filter (· ∉ l.kept.toList)).eraseDups := by
  induction edges generalizing l with
  | nil => simp
  | cons e edges ih =>
    rw [List.foldl_cons, ih (h.add e)]
    by_cases he : e ∈ l.kept.toList
    · have hadd : l.add e = l := if_pos ((h.contains_iff e).2 he)
      rw [hadd, List.filter_cons_of_neg (by simpa using he)]
    · have hkept : (l.add e).kept.toList = l.kept.toList ++ [e] := by
        rw [add, if_neg fun hmem => he ((h.contains_iff e).1 hmem), Array.toList_push]
      have hrest : edges.filter (· ∉ l.kept.toList ++ [e]) =
          (edges.filter (· ∉ l.kept.toList)).filter fun x => !x == e := by
        rw [List.filter_filter]
        refine List.filter_congr fun x _ => ?_
        by_cases hx : x = e <;> simp [hx]
      rw [hkept, List.filter_cons_of_pos (by simpa using he), List.eraseDups_cons, hrest,
        List.append_assoc, List.singleton_append]

/-- The edges kept are what is left when later repetitions are erased. -/
theorem Links.kept_ofEdges (size : Nat) (edges : List (Nat × Nat)) :
    (ofEdges size edges).kept.toList = edges.eraseDups := by
  rw [ofEdges, kept_foldl_add (agree_none size edges.length)]
  simp [none]

theorem eraseDups_of_nodup {edges : List (Nat × Nat)} (h : edges.Nodup) :
    edges.eraseDups = edges := by
  induction edges with
  | nil => rfl
  | cons e edges ih =>
    rw [List.nodup_cons] at h
    have hkeep : edges.filter (fun x => !x == e) = edges := by
      rw [List.filter_eq_self]
      intro x hx
      have hne : x ≠ e := ne_of_mem_of_not_mem hx h.1
      simp [hne]
    rw [List.eraseDups_cons, hkeep, ih h.2]

/-! ## Rows of edge ends -/

theorem getD_rows {size : Nat} {near far : Nat × Nat → Nat} {edges : List (Nat × Nat)}
    (h : ∀ e ∈ edges, near e < size) (u : Nat) :
    (rows size near far edges).getD u [] = (edges.filter fun e => near e == u).map far := by
  rw [Array.getD_eq_getD_getElem?]
  by_cases hu : u < size
  · rw [getElem?_rows hu, Option.getD_some]
  · rw [Array.getElem?_eq_none (by rw [size_rows]; omega)]
    have hnone : edges.filter (fun e => near e == u) = [] := by
      rw [List.filter_eq_nil_iff]
      intro e he hu'
      have := h e he
      rw [beq_iff_eq] at hu'
      omega
    rw [hnone]
    rfl

/-- Merging adds the predecessors that are no successors, if no predecessor is listed twice. -/
theorem mergeRows_eq {successors predecessors : List Nat} (hnd : predecessors.Nodup) :
    mergeRows successors predecessors =
      successors ++ predecessors.filter fun p => !successors.contains p := by
  unfold mergeRows
  induction predecessors generalizing successors with
  | nil => simp
  | cons p rest ih =>
    rw [List.nodup_cons] at hnd
    rw [List.foldl_cons, ih hnd.2]
    by_cases hp : successors.contains p = true
    · rw [if_pos hp, List.filter_cons_of_neg (by simpa using hp)]
    · have hrest : rest.filter (fun q => !(successors ++ [p]).contains q) =
          rest.filter fun q => !successors.contains q := by
        refine List.filter_congr fun q hq => ?_
        have hne : q ≠ p := ne_of_mem_of_not_mem hq hnd.1
        simp [hne]
      rw [if_neg hp, List.filter_cons_of_pos (by simpa using hp), hrest, List.append_assoc,
        List.singleton_append]

namespace Device

theorem build_eq_ok_iff {size : Nat} {edges : List (Nat × Nat)} {registers : List Register}
    {d : Device} :
    build size edges registers = .ok d ↔
      ∃ valid : ∀ e ∈ edges, ValidEdge size e, d = assemble size edges registers valid := by
  unfold build
  split
  · next e he =>
    have hinvalid := List.find?_some he
    rw [Bool.not_eq_true', decide_eq_false_iff_not] at hinvalid
    constructor
    · intro h
      cases h
    · rintro ⟨valid, -⟩
      exact absurd (valid e (List.mem_of_find?_eq_some he)) hinvalid
  · next hnone =>
    constructor
    · intro h
      cases h
      exact ⟨_, rfl⟩
    · rintro ⟨valid, rfl⟩
      rfl

/-- A device that is built has the edges given, without later repetitions. -/
theorem edges_of_build {size : Nat} {edges : List (Nat × Nat)} {registers : List Register}
    {d : Device} (h : build size edges registers = .ok d) :
    d.size = size ∧ d.edges = edges.eraseDups := by
  obtain ⟨valid, rfl⟩ := build_eq_ok_iff.1 h
  exact ⟨rfl, Links.kept_ofEdges size edges⟩

variable (d : Device)

/-- Two qubits are coupled if an edge joins them in either direction. -/
def Coupled (u v : Nat) : Prop := (u, v) ∈ d.edges ∨ (v, u) ∈ d.edges

instance (u v : Nat) : Decidable (d.Coupled u v) := inferInstanceAs (Decidable (_ ∨ _))

/-- The successors of a qubit, read off the edge list. -/
theorem successors_eq (u : Nat) :
    d.successors u = (d.edges.filter fun e => e.1 == u).map Prod.snd := by
  rw [successors, d.successorTable_eq]
  exact getD_rows (fun e he => (d.edges_valid e he).1) u

/-- The predecessors of a qubit, read off the edge list. -/
theorem predecessors_eq (u : Nat) :
    d.predecessors u = (d.edges.filter fun e => e.2 == u).map Prod.fst := by
  rw [predecessors, d.predecessorTable_eq]
  exact getD_rows (fun e he => (d.edges_valid e he).2.1) u

theorem mem_successors_iff {u v : Nat} : v ∈ d.successors u ↔ (u, v) ∈ d.edges := by
  rw [successors_eq]
  constructor
  · intro h
    obtain ⟨⟨x, y⟩, he, rfl⟩ := List.mem_map.1 h
    obtain ⟨he, hx⟩ := List.mem_filter.1 he
    rw [beq_iff_eq] at hx
    exact hx ▸ he
  · intro h
    exact List.mem_map.2 ⟨(u, v), List.mem_filter.2 ⟨h, beq_self_eq_true u⟩, rfl⟩

theorem mem_predecessors_iff {u v : Nat} : v ∈ d.predecessors u ↔ (v, u) ∈ d.edges := by
  rw [predecessors_eq]
  constructor
  · intro h
    obtain ⟨⟨x, y⟩, he, rfl⟩ := List.mem_map.1 h
    obtain ⟨he, hy⟩ := List.mem_filter.1 he
    rw [beq_iff_eq] at hy
    exact hy ▸ he
  · intro h
    exact List.mem_map.2 ⟨(v, u), List.mem_filter.2 ⟨h, beq_self_eq_true u⟩, rfl⟩

/-! ## Questions about one pair of qubits -/

theorem hasEdge_iff {u v : Nat} : d.hasEdge u v = true ↔ (u, v) ∈ d.edges := d.natural_iff (u, v)

theorem isReverseEdge_iff {u v : Nat} :
    d.isReverseEdge u v = true ↔ (v, u) ∈ d.edges ∧ (u, v) ∉ d.edges := by
  rw [isReverseEdge, Bool.and_eq_true, hasEdge_iff, Bool.not_eq_true', ← Bool.not_eq_true,
    hasEdge_iff]

theorem isAdjacent_iff {u v : Nat} : d.isAdjacent u v = true ↔ d.Coupled u v := by
  rw [isAdjacent, Bool.or_eq_true, hasEdge_iff, hasEdge_iff, Coupled]

variable {d}

theorem Coupled.symm {u v : Nat} (h : d.Coupled u v) : d.Coupled v u := Or.symm h

theorem Coupled.lt {u v : Nat} (h : d.Coupled u v) : u < d.size ∧ v < d.size := by
  rcases h with h | h
  · exact ⟨(d.edges_valid _ h).1, (d.edges_valid _ h).2.1⟩
  · exact ⟨(d.edges_valid _ h).2.1, (d.edges_valid _ h).1⟩

/-- No qubit is coupled with itself. -/
theorem Coupled.ne {u v : Nat} (h : d.Coupled u v) : u ≠ v := by
  rcases h with h | h
  · exact (d.edges_valid _ h).2.2
  · exact Ne.symm (d.edges_valid _ h).2.2

variable (d)

/-! ## No qubit is listed twice -/

/-- The other ends of the edges at a qubit are distinct, since the edges are. -/
theorem nodup_ends {edges : List (Nat × Nat)} (hnd : edges.Nodup) {near far : Nat × Nat → Nat}
    (hends : ∀ e e', near e = near e' → far e = far e' → e = e') (u : Nat) :
    ((edges.filter fun e => near e == u).map far).Nodup := by
  apply List.Nodup.map_on _ (hnd.filter _)
  intro e he e' he' hfar
  have hnear := (List.mem_filter.1 he).2
  have hnear' := (List.mem_filter.1 he').2
  rw [beq_iff_eq] at hnear hnear'
  exact hends e e' (hnear.trans hnear'.symm) hfar

theorem nodup_successors (u : Nat) : (d.successors u).Nodup := by
  rw [successors_eq]
  exact nodup_ends d.edges_nodup (fun _ _ => Prod.ext) u

theorem nodup_predecessors (u : Nat) : (d.predecessors u).Nodup := by
  rw [predecessors_eq]
  exact nodup_ends d.edges_nodup (fun _ _ htarget hcontrol => Prod.ext hcontrol htarget) u

/-- The neighbours of a qubit: its successors, then the predecessors that are none of them. -/
theorem neighbours_eq (u : Nat) :
    d.neighbours u =
      d.successors u ++ (d.predecessors u).filter fun v => !(d.successors u).contains v := by
  rw [← mergeRows_eq (d.nodup_predecessors u), neighbours, successors, predecessors,
    d.neighbourTable_eq]
  simp only [Array.getD_eq_getD_getElem?, Array.getElem?_zipWith]
  have hs : d.successorTable.size = d.size := by rw [d.successorTable_eq, size_rows]
  have hp : d.predecessorTable.size = d.size := by rw [d.predecessorTable_eq, size_rows]
  by_cases hu : u < d.size
  · rw [Array.getElem?_eq_getElem (by omega), Array.getElem?_eq_getElem (by omega)]
    rfl
  · rw [Array.getElem?_eq_none (by omega), Array.getElem?_eq_none (by omega)]
    rfl

theorem mem_neighbours_iff {u v : Nat} : v ∈ d.neighbours u ↔ d.Coupled u v := by
  rw [neighbours_eq, List.mem_append, List.mem_filter, Bool.not_eq_true', ← Bool.not_eq_true,
    List.contains_iff_mem, mem_successors_iff, mem_predecessors_iff, Coupled]
  tauto

variable {d} in
theorem mem_neighbours_symm {u v : Nat} (h : v ∈ d.neighbours u) : u ∈ d.neighbours v :=
  d.mem_neighbours_iff.2 (d.mem_neighbours_iff.1 h).symm

/-- A qubit with edges in both directions is listed among the successors only. -/
theorem nodup_neighbours (u : Nat) : (d.neighbours u).Nodup := by
  rw [neighbours_eq]
  apply List.Nodup.append (d.nodup_successors u) ((d.nodup_predecessors u).filter _)
  intro v hs hp
  have hnot := (List.mem_filter.1 hp).2
  simp [hs] at hnot

/-- The couplings of a device are its coupled pairs with the lower qubit first. -/
theorem mem_couplings_iff {u v : Nat} : (u, v) ∈ d.couplings ↔ u < v ∧ d.Coupled u v := by
  simp only [couplings, List.mem_flatMap, List.mem_map, List.mem_filter, List.mem_range,
    decide_eq_true_eq, mem_neighbours_iff, Prod.mk.injEq]
  constructor
  · rintro ⟨x, -, y, ⟨hc, hlt⟩, rfl, rfl⟩
    exact ⟨hlt, hc⟩
  · rintro ⟨hlt, hc⟩
    exact ⟨u, hc.lt.1, v, ⟨hc, hlt⟩, rfl, rfl⟩

/-- The device with the given edges, which are valid and not repeated, and no registers. -/
def ofNodup (size : Nat) (edges : List (Nat × Nat)) (valid : ∀ e ∈ edges, ValidEdge size e)
    (nodup : edges.Nodup) : Device where
  size := size
  edges := edges
  registers := []
  natural := (Links.ofEdges size edges).natural
  successorTable := rows size Prod.fst Prod.snd edges
  predecessorTable := rows size Prod.snd Prod.fst edges
  neighbourTable :=
    Array.zipWith mergeRows (rows size Prod.fst Prod.snd edges) (rows size Prod.snd Prod.fst edges)
  edges_valid := valid
  edges_nodup := nodup
  natural_iff := fun e => by
    rw [(Links.agree_ofEdges size edges).contains_iff, Links.kept_ofEdges, eraseDups_of_nodup nodup]
  successorTable_eq := rfl
  predecessorTable_eq := rfl
  neighbourTable_eq := rfl

/-- It is what is built from these edges. -/
theorem build_eq_ofNodup {size : Nat} {edges : List (Nat × Nat)}
    (valid : ∀ e ∈ edges, ValidEdge size e) (nodup : edges.Nodup) :
    build size edges [] = .ok (ofNodup size edges valid nodup) := by
  refine build_eq_ok_iff.2 ⟨valid, ?_⟩
  have hkept : (Links.ofEdges size edges).kept.toList = edges := by
    rw [Links.kept_ofEdges, eraseDups_of_nodup nodup]
  have hagree := Links.agree_ofEdges size edges
  simp [ofNodup, assemble, hagree.successors_eq, hagree.predecessors_eq, hkept]

end Device

end QubitAllocation
