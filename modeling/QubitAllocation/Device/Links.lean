/-!
# Links between qubits

The edges of a device are kept in several forms: a list in the order in which they are given, a set
for the question whether a pair is an edge, and for each qubit the rows of the other ends of the
edges that leave and enter it. One pass over the edges given fills all of them and drops later
repetitions (`Links.ofEdges`); all of them then hold the same edges (`Links.agree_ofEdges`).
-/

namespace QubitAllocation

/-! ## Sets of edges -/

/-- A set of edges. Each stands in the bucket that its two ends select. -/
structure EdgeSet where
  buckets : Array (List (Nat × Nat))
  nonempty : 0 < buckets.size

namespace EdgeSet

/-- The empty set, with room for `count` edges. -/
def empty (count : Nat) : EdgeSet where
  buckets := Array.replicate (count + 1) []
  nonempty := by rw [Array.size_replicate]; exact Nat.succ_pos count

/-- The bucket of an edge. -/
def bucket (s : EdgeSet) (e : Nat × Nat) : Nat := (31 * e.1 + e.2) % s.buckets.size

def contains (s : EdgeSet) (e : Nat × Nat) : Bool :=
  (s.buckets.getD (s.bucket e) []).contains e

def insert (s : EdgeSet) (e : Nat × Nat) : EdgeSet where
  buckets := s.buckets.modify (s.bucket e) (e :: ·)
  nonempty := by rw [Array.size_modify]; exact s.nonempty

theorem contains_empty (count : Nat) (e : Nat × Nat) : (empty count).contains e = false := by
  rw [contains, empty, Array.getD_eq_getD_getElem?, Array.getElem?_replicate]
  split <;> rfl

theorem contains_insert (s : EdgeSet) (e e' : Nat × Nat) :
    (s.insert e).contains e' = (e' == e || s.contains e') := by
  have hbucket : (s.insert e).bucket e' = s.bucket e' := by
    rw [bucket, insert, Array.size_modify, bucket]
  have hlt : s.bucket e' < s.buckets.size := Nat.mod_lt _ s.nonempty
  rw [contains, hbucket, insert, contains, Array.getD_eq_getD_getElem?, Array.getElem?_modify,
    Array.getD_eq_getD_getElem?, Array.getElem?_eq_getElem hlt]
  by_cases hsame : s.bucket e = s.bucket e'
  · rw [if_pos hsame, Option.map_some, Option.getD_some, Option.getD_some, List.contains_cons]
  · -- edges in other buckets are other edges
    have hne : (e' == e) = false := beq_eq_false_iff_ne.2 fun heq => hsame (heq ▸ rfl)
    rw [if_neg hsame, hne, Bool.false_or]

end EdgeSet

/-! ## Rows -/

/-- For each qubit, the far ends of the edges whose near end it is, in edge order. -/
def rows (size : Nat) (near far : Nat × Nat → Nat) (edges : List (Nat × Nat)) :
    Array (List Nat) :=
  (Array.range size).map fun u => (edges.filter fun e => near e == u).map far

theorem size_rows (size : Nat) (near far : Nat × Nat → Nat) (edges : List (Nat × Nat)) :
    (rows size near far edges).size = size := by
  rw [rows, Array.size_map, Array.size_range]

theorem getElem?_rows {size u : Nat} (hu : u < size) (near far : Nat × Nat → Nat)
    (edges : List (Nat × Nat)) :
    (rows size near far edges)[u]? = some ((edges.filter fun e => near e == u).map far) := by
  rw [rows, Array.getElem?_map, Array.getElem?_range, if_pos hu, Option.map_some]

theorem rows_nil (size : Nat) (near far : Nat × Nat → Nat) :
    rows size near far [] = Array.replicate size [] := by
  have hconst : rows size near far [] = Array.replicate (Array.range size).size [] :=
    Array.map_const'
  rwa [Array.size_range] at hconst

/-- One more edge goes to the end of one row. -/
theorem rows_append_singleton (size : Nat) (near far : Nat × Nat → Nat) (edges : List (Nat × Nat))
    (e : Nat × Nat) :
    rows size near far (edges ++ [e]) =
      (rows size near far edges).modify (near e) (· ++ [far e]) := by
  apply Array.ext_getElem?
  intro u
  rw [Array.getElem?_modify]
  by_cases hu : u < size
  · rw [getElem?_rows hu, getElem?_rows hu, List.filter_append, List.map_append]
    by_cases hnear : near e = u
    · simp [hnear]
    · simp [hnear]
  · have hout : ∀ edges, (rows size near far edges)[u]? = none := fun edges =>
      Array.getElem?_eq_none (by rw [size_rows]; exact Nat.le_of_not_lt hu)
    rw [hout, hout]
    split <;> rfl

/-! ## One pass over the edges -/

/-- The edges kept so far: as a list, as a set, and by their ends. -/
structure Links where
  kept : Array (Nat × Nat)
  natural : EdgeSet
  successors : Array (Array Nat)
  predecessors : Array (Array Nat)

namespace Links

/-- No edge between `size` qubits, with room for `count` edges. -/
def none (size count : Nat) : Links where
  kept := #[]
  natural := .empty count
  successors := Array.replicate size #[]
  predecessors := Array.replicate size #[]

/-- Keep an edge, unless it is kept already. -/
def add (l : Links) (e : Nat × Nat) : Links :=
  if l.natural.contains e then l
  else
    { kept := l.kept.push e
      natural := l.natural.insert e
      successors := l.successors.modify e.1 (·.push e.2)
      predecessors := l.predecessors.modify e.2 (·.push e.1) }

/-- The links that the given edges make. -/
def ofEdges (size : Nat) (edges : List (Nat × Nat)) : Links :=
  edges.foldl add (none size edges.length)

/-- The list, the set and the rows hold the same edges, and the list holds each once. -/
structure Agree (size : Nat) (l : Links) : Prop where
  nodup : l.kept.toList.Nodup
  contains_iff : ∀ e, l.natural.contains e = true ↔ e ∈ l.kept.toList
  successors_eq : l.successors.map Array.toList = rows size Prod.fst Prod.snd l.kept.toList
  predecessors_eq : l.predecessors.map Array.toList = rows size Prod.snd Prod.fst l.kept.toList

theorem agree_none (size count : Nat) : Agree size (none size count) where
  nodup := List.nodup_nil
  contains_iff := fun e => by simp [none, EdgeSet.contains_empty]
  successors_eq := by rw [none, Array.map_replicate, rows_nil]
  predecessors_eq := by rw [none, Array.map_replicate, rows_nil]

/-- Pushed to the end of an array of entries, a row ends with the entry. -/
theorem map_toList_modify (table : Array (Array Nat)) (u v : Nat) :
    (table.modify u (·.push v)).map Array.toList =
      (table.map Array.toList).modify u (· ++ [v]) := by
  apply Array.ext_getElem?
  intro w
  rw [Array.getElem?_map, Array.getElem?_modify, Array.getElem?_modify, Array.getElem?_map]
  split
  · cases table[w]? with
    | none => rfl
    | some row => simp
  · rfl

/-- **All forms keep in step**, whichever edge is added. -/
theorem Agree.add {size : Nat} {l : Links} (h : Agree size l) (e : Nat × Nat) :
    Agree size (l.add e) := by
  unfold Links.add
  split
  · exact h
  next hnew =>
    have hnot : e ∉ l.kept.toList := fun hmem => hnew ((h.contains_iff e).2 hmem)
    refine ⟨?_, ?_, ?_, ?_⟩
    · rw [Array.toList_push, List.nodup_append]
      refine ⟨h.nodup, List.nodup_cons.2 ⟨List.not_mem_nil, List.nodup_nil⟩, ?_⟩
      intro x hx y hy heq
      rw [List.mem_singleton.1 hy] at heq
      exact hnot (heq ▸ hx)
    · intro e'
      rw [EdgeSet.contains_insert, Bool.or_eq_true, beq_iff_eq, h.contains_iff, Array.toList_push,
        List.mem_append, List.mem_singleton]
      exact Or.comm
    · rw [map_toList_modify, h.successors_eq, Array.toList_push, rows_append_singleton]
    · rw [map_toList_modify, h.predecessors_eq, Array.toList_push, rows_append_singleton]

theorem Agree.foldl_add {size : Nat} {l : Links} (h : Agree size l) (edges : List (Nat × Nat)) :
    Agree size (edges.foldl Links.add l) := by
  induction edges generalizing l with
  | nil => exact h
  | cons e edges ih => exact ih (h.add e)

theorem agree_ofEdges (size : Nat) (edges : List (Nat × Nat)) :
    Agree size (ofEdges size edges) :=
  (agree_none size edges.length).foldl_add edges

theorem mem_or_mem_of_foldl_add {edges : List (Nat × Nat)} {l : Links} {e : Nat × Nat}
    (h : e ∈ (edges.foldl add l).kept.toList) : e ∈ l.kept.toList ∨ e ∈ edges := by
  induction edges generalizing l with
  | nil => exact Or.inl h
  | cons e' edges ih =>
    rcases ih h with h | h
    · unfold add at h
      split at h
      · exact Or.inl h
      · rw [Array.toList_push, List.mem_append, List.mem_singleton] at h
        rcases h with h | rfl
        · exact Or.inl h
        · exact Or.inr List.mem_cons_self
    · exact Or.inr (List.mem_cons_of_mem e' h)

/-- What is kept was given. -/
theorem mem_of_mem_kept {size : Nat} {edges : List (Nat × Nat)} {e : Nat × Nat}
    (h : e ∈ (ofEdges size edges).kept.toList) : e ∈ edges :=
  (mem_or_mem_of_foldl_add h).resolve_left List.not_mem_nil

end Links

end QubitAllocation
