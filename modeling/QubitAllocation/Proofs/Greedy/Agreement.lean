import QubitAllocation.Proofs.Greedy.Schedule
import QubitAllocation.Proofs.Safety.Allocator

/-!
# A program and its dependencies are allocated alike

In a paired program every statement touches at most one wire or is a plain two-qubit statement. The
circuit of its dependencies is then the circuit of the program without the nodes on at most one wire
(`Circuit.Thins`), and a greedy run of the one follows a greedy run of the other (`Run.Matches`). A
lone node moves the run of the program alone. Once no lone node is at a front, the same nodes are
ready in the same order (`Circuit.Thins.ready_eq`), so both runs commit the same node with the same
fix, or are refused alike (`Run.Matches.advance`). Hence both loops end alike
(`Run.Matches.finishes`), and the two allocations differ in their schedules only
(`Allocator.allocateProgram_agrees`).
-/

set_option autoImplicit false

namespace QubitAllocation

/-- Every statement touches at most one wire, or it is on two qubits, has no classical bits and is
no barrier. -/
def Program.Paired (p : Program) : Prop :=
  ∀ entry ∈ p.statements.zipIdx,
    p.circuit.arity entry.2 ≤ 1 ∨ entry.1.pair?.isSome = true ∧ entry.1.clbits = []

/-- The wires and the call points of the program can be counted in 32 bits. -/
structure Program.Counted (p : Program) : Prop where
  wires : p.numQubits + p.numClbits < 2 ^ 32
  callPoints : p.statements.length ≤ 2 ^ 32

instance (p : Program) : Decidable p.Paired :=
  inferInstanceAs (Decidable (∀ entry ∈ p.statements.zipIdx, _))

/-- The wires of a node on declared qubits only are its qubits. -/
theorem Node.wires_of_qubits {numQubits numClbits : Nat} {node : Node}
    (hqubits : ∀ q ∈ node.qubits, q < numQubits) (hclbits : node.clbits = []) :
    node.wires numQubits numClbits = node.qubits.foldr insertAscending [] := by
  have hall : node.qubits.filter (· < numQubits) = node.qubits :=
    List.filter_eq_self.2 fun q hq => decide_eq_true (hqubits q hq)
  simp [wires, operands, hclbits, hall]

/-! ## Circuits without lone nodes -/

namespace Circuit

/-- The nodes of `thin` are those of `full` on several wires, in the same order and on the same
wires. Call points are places in `full`. -/
structure Thins (thin full : Circuit) : Prop where
  place : ∀ {i}, i < full.size → full.callPointAt i = i
  mono : ∀ {k l}, k < l → l < thin.size → thin.callPointAt k < thin.callPointAt l
  wires : ∀ {k}, k < thin.size → full.wires (thin.callPointAt k) = thin.wires k
  several : ∀ {k}, k < thin.size → 2 ≤ thin.arity k
  kept : ∀ {i}, 2 ≤ full.arity i → ∃ k, k < thin.size ∧ thin.callPointAt k = i

theorem lt_size_of_arity {c : Circuit} {i : Nat} (h : 2 ≤ c.arity i) : i < c.size := by
  obtain ⟨w, hw⟩ := List.exists_mem_of_length_pos (Nat.zero_lt_two.trans_le h)
  exact (lt_of_mem_wires hw).2

section Program

variable {p : Program} {deps : Dependencies} {dep : Dependency} {n k : Nat}

theorem node?_ofDependencies (h : deps[k]? = some dep) :
    (ofDependencies deps n).node? k =
      some ⟨dep.callPoint, "cx", dep.pairs.flatMap fun p => [p.control, p.target], []⟩ := by
  rw [ofDependencies, node?_ofNodes, List.getElem?_map, h]
  rfl

theorem size_ofDependencies (deps : Dependencies) (n : Nat) :
    (ofDependencies deps n).size = deps.length := by
  rw [size, ofDependencies, ofNodes, List.size_toArray, List.length_map]

/-- Every node of the circuit of a program's dependencies comes from a two-qubit statement. -/
theorem exists_statement (hk : k < (ofDependencies p.dependencies n).size) :
    ∃ i s pair, p.dependencies[k]? = some (.single i pair) ∧ p.statements[i]? = some s ∧
      s.pair? = some pair := by
  rw [size_ofDependencies] at hk
  have hget := List.getElem?_eq_getElem hk
  obtain ⟨i, s, pair, hs, hpair, hdep⟩ := mem_dependencies_iff.1 (List.mem_of_getElem? hget)
  rw [hdep] at hget
  exact ⟨i, s, pair, hget, hs, hpair⟩

/-- **The dependencies of a paired program thin its circuit.** -/
theorem thins_program (hp : p.validate = .ok ()) (hpaired : p.Paired) (hsize : p.numQubits ≤ n)
    (hdeps : p.dependencies.validate n = .ok ()) :
    (ofDependencies p.dependencies n).Thins p.circuit where
  place := callPointAt_circuit
  mono := by
    intro k l hkl hl
    rw [size_ofDependencies] at hl
    have hk : k < p.dependencies.length := hkl.trans hl
    rw [callPointAt_eq (node?_ofDependencies (List.getElem?_eq_getElem hk)),
      callPointAt_eq (node?_ofDependencies (List.getElem?_eq_getElem hl))]
    exact List.pairwise_iff_getElem.1 (pairwise_callPoint_dependencies p) k l hk hl hkl
  wires := by
    intro k hk
    obtain ⟨i, s, pair, hdep, hs, hpair⟩ := exists_statement hk
    have hnode : p.circuit.node? i = some ⟨i, s.name, s.qubits, s.clbits⟩ := by
      rw [node?_circuit, hs]
      rfl
    have hmem : Dependency.single i pair ∈ p.dependencies := List.mem_of_getElem? hdep
    have hmany := (carries_program hp hdeps).arity hnode hmem rfl
    have hplain : s.clbits = [] := by
      rcases hpaired (s, i) (List.mem_zipIdx_iff_getElem?.2 hs) with hlone | ⟨-, hclbits⟩
      · exact absurd hmany (Nat.not_le.2 (Nat.lt_succ_of_le hlone))
      · exact hclbits
    have hlt := (lt_of_validate (Outcome.forM_eq_ok_iff.1 hp s (List.mem_of_getElem? hs))).1
    have hqubits := qubits_of_pair hpair
    have hnode' := node?_ofDependencies (n := n) hdep
    have hplace : (ofDependencies p.dependencies n).callPointAt k = i := callPointAt_eq hnode'
    have hlt' : ∀ q ∈ [pair.control, pair.target], q < n := by
      intro q hq
      rw [← hqubits] at hq
      exact (hlt q hq).trans_le hsize
    rw [hplace, wires_eq hnode, wires_eq hnode', Node.wires_of_qubits hlt hplain,
      Node.wires_of_qubits hlt' rfl, hqubits]
    rfl
  several := by
    intro k hk
    obtain ⟨i, s, pair, hdep, -, -⟩ := exists_statement hk
    exact (carries_ofDependencies hdeps (nodup_callPoint_dependencies p)).arity
      (node?_ofDependencies hdep) (List.mem_of_getElem? hdep) rfl
  kept := by
    intro i hmany
    have hi := lt_size_of_arity hmany
    rw [size_circuit] at hi
    have hs := List.getElem?_eq_getElem hi
    rcases hpaired (p.statements[i], i) (List.mem_zipIdx_iff_getElem?.2 hs) with hlone | ⟨hpair, -⟩
    · exact absurd hmany (Nat.not_le.2 (Nat.lt_succ_of_le hlone))
    · obtain ⟨pair, hpair⟩ := Option.isSome_iff_exists.1 hpair
      have hmem := mem_dependencies_iff.2 ⟨i, _, pair, hs, hpair, rfl⟩
      obtain ⟨k, hk, hget⟩ := List.mem_iff_getElem.1 hmem
      have hget? := List.getElem?_eq_getElem hk
      rw [hget] at hget?
      exact ⟨k, by rwa [size_ofDependencies], callPointAt_eq (node?_ofDependencies hget?)⟩

end Program

/-! ## The same nodes are ready -/

namespace Thins

variable {thin full : Circuit} {k l : Nat}

theorem lt_iff (h : thin.Thins full) (hk : k < thin.size) (hl : l < thin.size) :
    thin.callPointAt k < thin.callPointAt l ↔ k < l := by
  refine ⟨fun hlt => ?_, fun hlt => h.mono hlt hl⟩
  by_contra hle
  rcases Nat.lt_or_eq_of_le (Nat.not_lt.1 hle) with hlk | rfl
  · exact Nat.lt_asymm hlt (h.mono hlk hk)
  · exact Nat.lt_irrefl _ hlt

theorem inj (h : thin.Thins full) (hk : k < thin.size) (hl : l < thin.size)
    (heq : thin.callPointAt k = thin.callPointAt l) : k = l := by
  have hkl := h.lt_iff hk hl
  have hlk := h.lt_iff hl hk
  omega

theorem arity (h : thin.Thins full) (hk : k < thin.size) :
    2 ≤ full.arity (thin.callPointAt k) := by
  rw [Circuit.arity, h.wires hk]
  exact h.several hk

theorem place_lt (h : thin.Thins full) (hk : k < thin.size) : thin.callPointAt k < full.size :=
  lt_size_of_arity (h.arity hk)

section Fronts

variable {f f' : Frontier} {done done' : List Nat} (h : thin.Thins full)
  (hf : f.Scheduled full done) (hf' : f'.Scheduled thin done')
  (hdone : done'.map thin.callPointAt = done.filter fun i => 2 ≤ full.arity i)

include h hf' hdone

theorem mem_done_iff (hk : k < thin.size) : thin.callPointAt k ∈ done ↔ k ∈ done' := by
  have hfilter : thin.callPointAt k ∈ done ↔ thin.callPointAt k ∈ done'.map thin.callPointAt := by
    rw [hdone, List.mem_filter, decide_eq_true_eq]
    exact ⟨fun hmem => ⟨hmem, h.arity hk⟩, fun hmem => hmem.1⟩
  rw [hfilter, List.mem_map]
  constructor
  · rintro ⟨l, hl, heq⟩
    rwa [← h.inj (hf'.lt l hl) hk heq]
  · intro hmem
    exact ⟨k, hmem, rfl⟩

include hf

/-- A node leads in the thin circuit exactly if it leads in the full one, provided that no lone node
is at a front there. -/
theorem leads_iff (hmany : ∀ w i, f.cursor.front w = some i → 2 ≤ full.arity i)
    (hk : k < thin.size) :
    f.Leads full done (thin.callPointAt k) ↔ f'.Leads thin done' k := by
  have hmem := fun {l} (hl : l < thin.size) => h.mem_done_iff hf' hdone hl
  constructor
  · rintro ⟨-, hfresh, hfront⟩
    refine ⟨hk, fun hdone => hfresh ((hmem hk).2 hdone), fun w hw => ?_⟩
    rw [← h.wires hk] at hw
    obtain ⟨-, -, hfirst⟩ := hf.left.front_eq_some_iff.1 (hfront w hw)
    rw [h.wires hk] at hw
    refine hf'.left.front_eq_some_iff.2 ⟨hw, fun hd => hfresh ((hmem hk).2 hd), fun l hl hwl => ?_⟩
    have hlt := hl.trans hk
    rw [← h.wires hlt] at hwl
    exact (hmem hlt).1 (hfirst _ (h.mono hl hk) hwl)
  · rintro ⟨-, hfresh, hfront⟩
    have hopen : thin.callPointAt k ∉ done := fun hd => hfresh ((hmem hk).1 hd)
    refine ⟨h.place_lt hk, hopen, fun w hw => ?_⟩
    -- the front of the wire is no lone node, so it is a node of the thin circuit and not before `k`
    obtain ⟨j, hj, hfrontj⟩ := hf.left.exists_front hw hopen
    obtain ⟨hwj, hfreshj, -⟩ := hf.left.front_eq_some_iff.1 hfrontj
    obtain ⟨l, hl, rfl⟩ := h.kept (hmany w j hfrontj)
    rcases Nat.lt_or_eq_of_le hj with hlt | heq
    · rw [h.wires hk] at hw
      rw [h.wires hl] at hwj
      obtain ⟨-, -, hfirst⟩ := hf'.left.front_eq_some_iff.1 (hfront w hw)
      exact absurd ((hmem hl).2 (hfirst l ((h.lt_iff hl hk).1 hlt) hwj)) hfreshj
    · rw [← heq, hfrontj]

omit hf' hdone in
/-- A node that leads is a node of the thin circuit. -/
theorem exists_place (hmany : ∀ w i, f.cursor.front w = some i → 2 ≤ full.arity i) {i : Nat}
    (hi : f.Leads full done i) : ∃ k, k < thin.size ∧ thin.callPointAt k = i := by
  -- an open node has a wire, and it is at the front of that wire
  obtain ⟨w, hw⟩ : ∃ w, w ∈ full.wires i :=
    List.exists_mem_of_ne_nil _ fun hnil => hi.fresh (hf.wireless i hi.lt hnil)
  exact h.kept (hmany w i (hi.front w hw))

/-- **The same nodes are ready, in the same order**, once all wires have been counted and no lone
node is at a front. -/
theorem ready_eq (hmany : ∀ w i, f.cursor.front w = some i → 2 ≤ full.arity i)
    (hseen : ∀ w, w < full.numWires → f.Seen w) (hseen' : ∀ w, w < thin.numWires → f'.Seen w) :
    f.ready = f'.ready.map thin.callPointAt := by
  have hlt : ∀ k ∈ f'.ready, k < thin.size := fun k hk => (hf'.leads_of_ready hk).lt
  have hsorted : (f'.ready.map thin.callPointAt).Pairwise (· < ·) := by
    refine List.pairwise_map.2 (hf'.ready_sorted.imp_of_mem fun {k l} _ hl hkl => ?_)
    exact h.mono hkl (hlt l hl)
  refine List.Pairwise.eq_of_mem_iff hf.ready_sorted hsorted fun i => ?_
  rw [hf.mem_ready_iff hseen, List.mem_map]
  constructor
  · intro hi
    obtain ⟨k, hk, rfl⟩ := h.exists_place hf hmany hi
    exact ⟨k, (hf'.mem_ready_iff hseen').2 ((h.leads_iff hf hf' hdone hmany hk).1 hi), rfl⟩
  · rintro ⟨k, hk, rfl⟩
    exact (h.leads_iff hf hf' hdone hmany (hlt k hk)).2 (hf'.leads_of_ready hk)

end Fronts

end Thins

end Circuit

namespace Greedy

open QubitAllocation.Outcome Arrangement

/-! ## Runs side by side -/

/-- The same task for the thin circuit. -/
def Task.thinned (t : Task) (thin : Circuit) : Task := { t with circuit := thin }

/-- Both tasks are to meet the dependencies, and every node of the thin circuit has one. -/
structure Task.Thins (t : Task) (thin : Circuit) (deps : Dependencies) : Prop where
  circuit : thin.Thins t.circuit
  isFor : t.For deps
  isFor' : (t.thinned thin).For deps
  paired : ∀ k, k < thin.size → ∃ p, (t.thinned thin).pair? k = some p

/-- The run `r'` of the thin circuit has scheduled the nodes on several wires that the run `r` of
the full circuit has, in the same order, and for the rest both stand alike. -/
structure Run.Matches (t : Task) (thin : Circuit) (deps : Dependencies) (r : Run) (done : List Nat)
    (r' : Run) (done' : List Nat) : Prop where
  inv : r.Inv t deps done
  inv' : r'.Inv (t.thinned thin) deps done'
  places : done'.map thin.callPointAt = done.filter fun i => 2 ≤ t.circuit.arity i
  state : r'.state = r.state
  cost : r'.cost = r.cost
  steps : r'.steps = r.steps

/-- The bid with its node named by its place. -/
def Bid.placed (c : Circuit) (b : Bid) : Bid := { b with node := c.callPointAt b.node }

section Step

variable {t : Task} {thin : Circuit} {deps : Dependencies} {r r' : Run} {done done' : List Nat}

theorem Task.Thins.pair?_place (ht : t.Thins thin deps) {k : Nat} (hk : k < thin.size) :
    t.pair? (thin.callPointAt k) = (t.thinned thin).pair? k := by
  have hlt := ht.circuit.place_lt hk
  rw [pair?_eq hlt, ht.circuit.place hlt, pair?_eq (t := t.thinned thin) hk]
  rfl

theorem Task.Thins.bid_place (ht : t.Thins thin deps) {k : Nat} (hk : k < thin.size) (s : State) :
    bid t s (thin.callPointAt k) = (bid (t.thinned thin) s k).map (Bid.placed thin) := by
  obtain ⟨p, hp⟩ := ht.paired k hk
  have hp' := (ht.pair?_place hk).trans hp
  rw [bid, bid, bind_of_eq_ok (lookup_eq_ok_iff.2 hp), bind_of_eq_ok (lookup_eq_ok_iff.2 hp')]
  show evaluate t.device t.costs s p >>= _ = (evaluate t.device t.costs s p >>= _).map _
  cases evaluate t.device t.costs s p with
  | error e => rfl
  | ok candidate => rfl

/-- A lone node moves the run of the full circuit alone. -/
theorem Run.Matches.commitLone (ht : t.Thins thin deps)
    (h : Run.Matches t thin deps r done r' done') {i : Nat}
    (hi : r.frontier.Leads t.circuit done i) (hlone : t.circuit.arity i ≤ 1) :
    Run.Matches t thin deps { r with frontier := r.frontier.committed t.circuit i } (done ++ [i])
      r' done' where
  inv := h.inv.commitBare hi (ht.isFor.pair?_eq_none hi.lt hlone) h.inv.state
  inv' := h.inv'
  places := by
    rw [List.filter_append, List.filter_cons_of_neg (by simpa using hlone), List.filter_nil,
      List.append_nil, h.places]
  state := h.state
  cost := h.cost
  steps := h.steps

/-- **With the same nodes ready, both runs commit the same node**, or they are refused alike. -/
theorem Run.Matches.commitCheapest (ht : t.Thins thin deps)
    (h : Run.Matches t thin deps r done r' done')
    (hready : r.frontier.ready = r'.frontier.ready.map thin.callPointAt)
    (hne : r'.frontier.ready ≠ []) :
    (∃ e, Greedy.commitCheapest t r = .error e ∧
      Greedy.commitCheapest (t.thinned thin) r' = .error e) ∨
    ∃ next next' i k, Greedy.commitCheapest t r = .ok next ∧
      Greedy.commitCheapest (t.thinned thin) r' = .ok next' ∧
      Run.Matches t thin deps next (done ++ [i]) next' (done' ++ [k]) := by
  have hlt : ∀ k ∈ r'.frontier.ready, k < thin.size := fun k hk =>
    (h.inv'.frontier.leads_of_ready hk).lt
  have hbids : r.frontier.ready.mapM (bid t r.state) =
      (r'.frontier.ready.mapM (bid (t.thinned thin) r'.state)).map
        (List.map (Bid.placed thin)) := by
    rw [hready, h.state]
    exact mapM_map_eq fun k hk => ht.bid_place (hlt k hk) r.state
  cases hmapM : r'.frontier.ready.mapM (bid (t.thinned thin) r'.state) with
  | error e =>
    rw [hmapM] at hbids
    refine Or.inl ⟨e, ?_, ?_⟩
    · rw [Greedy.commitCheapest, Handler.commitCheapest, hbids]
      rfl
    · rw [Greedy.commitCheapest, Handler.commitCheapest, hmapM]
      rfl
  | ok bids =>
    rw [hmapM] at hbids
    obtain ⟨best, hbest, hleads, hp, heval, hcommit⟩ :=
      commitCheapest_of_bids h.inv'.frontier hne hmapM
    obtain ⟨best', hbest', hleads', hp', heval', hcommit'⟩ :=
      commitCheapest_of_bids h.inv.frontier (by rwa [hready, Ne, List.map_eq_nil_iff]) hbids
    -- bids are chosen by cost, and a place does not change the cost
    obtain rfl : best.placed thin = best' := by
      rw [firstLeast_map] at hbest'
      exact Option.some.inj ((congrArg (Option.map (Bid.placed thin)) hbest).symm.trans hbest')
    obtain ⟨-, -, -, -, -, -, hdistinct⟩ := ht.isFor'.of_pair? hleads.lt hp
    obtain ⟨ops, s, happly, hinv⟩ :=
      h.inv'.commitPair ht.isFor' hleads hp (works_of_evaluate h.inv'.state hdistinct heval)
    obtain ⟨ops', s', happly', hinv'⟩ :=
      h.inv.commitPair ht.isFor hleads' hp' (works_of_evaluate h.inv.state hdistinct heval')
    -- the fix is carried out on the same state
    obtain ⟨rfl, rfl⟩ : ops = ops' ∧ s = s' := by
      rw [h.state] at happly
      simpa using happly.symm.trans happly'
    refine Or.inr ⟨_, _, _, _, hcommit' _ _ happly', hcommit _ _ happly, hinv', hinv, ?_, rfl,
      ?_, ?_⟩
    · rw [List.map_append, List.filter_append, h.places, List.filter_cons_of_pos, List.filter_nil]
      · rfl
      · exact decide_eq_true (ht.circuit.arity hleads.lt)
    · show r'.cost + _ = r.cost + _
      rw [h.cost]
      rfl
    · show r'.steps ++ [_] = r.steps ++ [⟨t.circuit.callPointAt (thin.callPointAt best.node), ops⟩]
      rw [h.steps, ht.circuit.place (ht.circuit.place_lt hleads.lt)]
      rfl

/-- Once every node of the full circuit is scheduled, so is every node of the thin one. -/
theorem Run.Matches.size_le (ht : t.Thins thin deps) (h : Run.Matches t thin deps r done r' done')
    (hall : t.circuit.size ≤ done.length) : thin.size ≤ done'.length := by
  have hsub : (List.range thin.size).Subperm done' := by
    refine List.nodup_range.subperm fun k hk => ?_
    rw [List.mem_range] at hk
    rw [← ht.circuit.mem_done_iff h.inv'.frontier h.places hk,
      (h.inv.frontier.done_perm hall).mem_iff, List.mem_range]
    exact ht.circuit.place_lt hk
  have hle := hsub.length_le
  rwa [List.length_range] at hle

/-- **One advance** of the full circuit's run leaves the other run where it is, or the other run
advances with it, or both are refused alike. -/
theorem Run.Matches.advance (ht : t.Thins thin deps) (h : Run.Matches t thin deps r done r' done')
    (hopen : done.length < t.circuit.size) :
    (∃ next i, Greedy.advance t r = .ok next ∧
      Run.Matches t thin deps next (done ++ [i]) r' done') ∨
    done'.length < thin.size ∧
      ((∃ e, Greedy.advance t r = .error e ∧ Greedy.advance (t.thinned thin) r' = .error e) ∨
        ∃ next next' i k, Greedy.advance t r = .ok next ∧
          Greedy.advance (t.thinned thin) r' = .ok next' ∧
          Run.Matches t thin deps next (done ++ [i]) next' (done' ++ [k])) := by
  rcases Greedy.advance_cases h.inv.frontier hopen with ⟨i, hleads, hlone, hadvance⟩ |
    ⟨hlone, f, hf, hseen, hready, hcases⟩
  · exact Or.inl ⟨_, i, hadvance, h.commitLone ht hleads hlone⟩
  · have hmany : ∀ w i, f.cursor.front w = some i → 2 ≤ t.circuit.arity i := fun w i hfront =>
      Frontier.two_le_arity_of_front hlone
        (h.inv.frontier.left.front_eq_some_iff.2 (hf.left.front_eq_some_iff.1 hfront))
    have hplace : ∀ i ∈ f.ready, ∃ k, k < thin.size ∧ k ∉ done' ∧ thin.callPointAt k = i := by
      intro i hi
      have hleads := hf.leads_of_ready hi
      obtain ⟨k, hk, rfl⟩ := ht.circuit.exists_place hf hmany hleads
      refine ⟨k, hk, fun hdone => hleads.fresh ?_, rfl⟩
      exact (ht.circuit.mem_done_iff h.inv'.frontier h.places hk).2 hdone
    -- a node is ready, so the thin circuit is not done either
    have hopen' : done'.length < thin.size := by
      obtain ⟨i, hi⟩ := List.exists_mem_of_ne_nil _ hready
      obtain ⟨k, hk, hfresh, -⟩ := hplace i hi
      by_contra hle
      refine hfresh ?_
      rw [(h.inv'.frontier.done_perm (Nat.not_lt.1 hle)).mem_iff]
      exact List.mem_range.2 hk
    have hadvance : Greedy.advance t r = Greedy.commitCheapest t { r with frontier := f } := by
      rcases hcases with ⟨free, hne, -, hfree, -⟩ | ⟨-, hadvance⟩
      · obtain ⟨i, hi⟩ := List.exists_mem_of_ne_nil _ hne
        obtain ⟨hmem, hnone⟩ := hfree i hi
        obtain ⟨k, hk, -, rfl⟩ := hplace i hmem
        obtain ⟨p, hp⟩ := ht.paired k hk
        rw [ht.pair?_place hk, hp] at hnone
        cases hnone
      · exact hadvance
    refine Or.inr ⟨hopen', ?_⟩
    rcases Greedy.advance_cases h.inv'.frontier hopen' with ⟨k, hleads, hlone', -⟩ |
      ⟨-, f', hf', hseen', hready', ⟨free, hne, -, hfree, -⟩ | ⟨-, hadvance'⟩⟩
    · exact absurd (ht.circuit.several hleads.lt) (Nat.not_le.2 (Nat.lt_succ_of_le hlone'))
    · obtain ⟨k, hk⟩ := List.exists_mem_of_ne_nil _ hne
      obtain ⟨hmem, hnone⟩ := hfree k hk
      obtain ⟨p, hp⟩ := ht.paired k (hf'.leads_of_ready hmem).lt
      rw [hp] at hnone
      cases hnone
    · rw [hadvance, hadvance']
      have hmarked : Run.Matches t thin deps { r with frontier := f } done
          { r' with frontier := f' } done' :=
        ⟨h.inv.marked hf, h.inv'.marked hf', h.places, h.state, h.cost, h.steps⟩
      exact hmarked.commitCheapest ht
        (ht.circuit.ready_eq hf hf' h.places hmany hseen hseen') hready'

end Step

/-! ## Loops side by side -/

theorem Finishes.unique {t : Task} {r : Run} {out out' : Except AllocError Run}
    (h : Finishes t r out) (h' : Finishes t r out') : out = out' := by
  induction h with
  | done hdone =>
    cases h' with
    | done _ => rfl
    | refused hopen _ => exact absurd hdone (Nat.not_le.2 hopen)
    | round hopen _ _ => exact absurd hdone (Nat.not_le.2 hopen)
  | refused hopen hadvance =>
    cases h' with
    | done hdone => exact absurd hdone (Nat.not_le.2 hopen)
    | refused _ hadvance' =>
      rw [hadvance] at hadvance'
      cases hadvance'
      rfl
    | round _ hadvance' _ =>
      rw [hadvance] at hadvance'
      cases hadvance'
  | round hopen hadvance _ ih =>
    cases h' with
    | done hdone => exact absurd hdone (Nat.not_le.2 hopen)
    | refused _ hadvance' =>
      rw [hadvance] at hadvance'
      cases hadvance'
    | round _ hadvance' hrest =>
      rw [hadvance] at hadvance'
      cases hadvance'
      exact ih hrest

section Loop

variable {t : Task} {thin : Circuit} {deps : Dependencies} {r r' : Run} {done done' : List Nat}

/-- **Both loops end alike**: they are refused alike, or their last runs match. -/
theorem Run.Matches.finishes (ht : t.Thins thin deps) {out : Except AllocError Run}
    (hout : Finishes t r out) (h : Run.Matches t thin deps r done r' done') :
    ∃ out', Finishes (t.thinned thin) r' out' ∧
      ((∃ e, out = .error e ∧ out' = .error e) ∨
        ∃ final final' all all', out = .ok final ∧ out' = .ok final' ∧
          Run.Matches t thin deps final all final' all') := by
  induction hout generalizing r' done done' with
  | @done r hdone =>
    refine ⟨.ok r', .done ?_, Or.inr ⟨r, r', done, done', rfl, rfl, h⟩⟩
    rw [h.inv.length_schedule] at hdone
    rw [h.inv'.length_schedule]
    exact h.size_le ht hdone
  | @refused r e hopen hadvance =>
    rw [h.inv.length_schedule] at hopen
    rcases h.advance ht hopen with ⟨next, i, hnext, -⟩ |
      ⟨hopen', ⟨e', he, he'⟩ | ⟨next, next', i, k, hnext, -, -⟩⟩
    · rw [hadvance] at hnext
      cases hnext
    · rw [hadvance] at he
      cases he
      refine ⟨.error e, .refused ?_ he', Or.inl ⟨e, rfl, rfl⟩⟩
      rw [h.inv'.length_schedule]
      exact hopen'
    · rw [hadvance] at hnext
      cases hnext
  | @round r next out hopen hadvance _ ih =>
    rw [h.inv.length_schedule] at hopen
    rcases h.advance ht hopen with ⟨next, i, hnext, hmatches⟩ |
      ⟨hopen', ⟨e', he, -⟩ | ⟨next, next', i, k, hnext, hnext', hmatches⟩⟩
    · -- a lone node: the other run waits
      rw [hadvance] at hnext
      cases hnext
      exact ih hmatches
    · rw [hadvance] at he
      cases he
    · rw [hadvance] at hnext
      cases hnext
      obtain ⟨out', hout', hends⟩ := ih hmatches
      refine ⟨out', .round ?_ hnext' hout', hends⟩
      rw [h.inv'.length_schedule]
      exact hopen'

/-- The schedules differ in the nodes on at most one wire, and these have no dependency. -/
theorem Run.Matches.schedule_eq (ht : t.Thins thin deps)
    (h : Run.Matches t thin deps r done r' done') :
    r'.frontier.schedule =
      r.frontier.schedule.filter (· ∈ deps.map Dependency.callPoint) := by
  have hself : r.frontier.schedule = done := by
    rw [h.inv.frontier.schedule]
    refine (List.map_congr_left fun i hi => ?_).trans (List.map_id done)
    exact ht.circuit.place (h.inv.frontier.lt i hi)
  rw [hself, h.inv'.frontier.schedule]
  refine h.places.trans (List.filter_congr fun i hi => ?_)
  rw [Bool.eq_iff_iff, decide_eq_true_eq, decide_eq_true_eq, List.mem_map]
  have hlt := h.inv.frontier.lt i hi
  constructor
  · intro hmany
    obtain ⟨k, hk, rfl⟩ := ht.circuit.kept hmany
    obtain ⟨p, hp⟩ := ht.paired k hk
    obtain ⟨dep, hdep, hcall, -⟩ := ht.isFor'.of_pair? hk hp
    exact ⟨dep, hdep, hcall⟩
  · rintro ⟨dep, hdep, hcall⟩
    obtain ⟨node, hnode⟩ := t.circuit.node?_eq_some hlt
    refine ht.isFor.carries.arity hnode hdep ?_
    rw [hcall, ← Circuit.callPointAt_eq hnode, ht.circuit.place hlt]

theorem matches_startRun (ht : t.Thins thin deps) {initial : List Nat}
    (hinitial : IsArrangement t.device.size initial) :
    ∃ done done', Run.Matches t thin deps (startRun t.circuit initial) done
      (startRun thin initial) done' := by
  refine ⟨_, _, inv_startRun ht.isFor hinitial, inv_startRun ht.isFor' hinitial, ?_, rfl, rfl, rfl⟩
  -- at the start nodes without a wire are scheduled; none of them is on several
  have hnone : (List.range thin.size).filter (fun k => (thin.wires k).isEmpty) = [] := by
    refine List.filter_eq_nil_iff.2 fun k hk hempty => ?_
    have hmany := ht.circuit.several (List.mem_range.1 hk)
    rw [Circuit.arity, List.isEmpty_iff.1 hempty] at hmany
    exact absurd hmany (by decide)
  show ((List.range thin.size).filter fun k => (thin.wires k).isEmpty).map thin.callPointAt = _
  rw [hnone, List.map_nil, List.filter_filter]
  refine (List.filter_eq_nil_iff.2 fun i _ hboth => ?_).symm
  rw [Bool.and_eq_true, decide_eq_true_eq, List.isEmpty_iff, Circuit.arity] at hboth
  rw [hboth.2] at hboth
  exact absurd hboth.1 (by decide)

end Loop

/-! ## Allocations side by side -/

theorem solveCircuit_of_not_valid {d : Device} {costs : CostModel} {placement : Placement}
    {c : Circuit} {deps : Dependencies} (hsize : c.numQubits ≤ d.size) {e : AllocError}
    (h : deps.validate d.size = .error e) : solveCircuit d costs placement c deps = .error e := by
  rw [solveCircuit, if_neg (Nat.not_lt.2 hsize), h]
  rfl

/-- The circuit of a paired program and the circuit of its dependencies have the same solution. -/
theorem solveCircuit_agrees {d : Device} {costs : CostModel} {placement : Placement} {p : Program}
    (hp : p.validate = .ok ()) (hsize : p.numQubits ≤ d.size) (hpaired : p.Paired) :
    (∃ e, solveCircuit d costs placement p.circuit p.dependencies = .error e ∧
      solveCircuit d costs placement (.ofDependencies p.dependencies d.size) p.dependencies =
        .error e) ∨
    ∃ solution schedule,
      solveCircuit d costs placement p.circuit p.dependencies = .ok ⟨solution, schedule⟩ ∧
      solveCircuit d costs placement (.ofDependencies p.dependencies d.size) p.dependencies =
        .ok ⟨solution, schedule.filter (· ∈ p.dependencies.map Dependency.callPoint)⟩ := by
  set thin := Circuit.ofDependencies p.dependencies d.size
  cases hvalid : p.dependencies.validate d.size with
  | error e =>
    exact Or.inl ⟨e, solveCircuit_of_not_valid hsize hvalid,
      solveCircuit_of_not_valid (Nat.le_refl d.size) hvalid⟩
  | ok _ =>
    obtain ⟨pairs, initial, htable, hinitial, hsetUp⟩ := setUp_of_validate costs placement hvalid
    have hcarries := Circuit.carries_program hp hvalid
    have hcarries' : thin.Carries p.dependencies :=
      Circuit.carries_ofDependencies hvalid (Circuit.nodup_callPoint_dependencies p)
    have ht : Task.Thins ⟨d, costs, p.circuit, pairs⟩ thin p.dependencies := by
      refine ⟨Circuit.thins_program hp hpaired hsize hvalid, ⟨hvalid, hcarries, htable⟩,
        ⟨hvalid, hcarries', htable⟩, fun k hk => ?_⟩
      obtain ⟨i, s, pair, hdep, -, -⟩ := Circuit.exists_statement hk
      rw [pair?_eq (t := Task.thinned _ thin) hk, ← Option.isSome_iff_exists]
      refine htable.lookup_isSome_iff.2 ?_
      rw [show (Task.thinned _ thin).circuit.callPointAt k = i from
        Circuit.callPointAt_eq (Circuit.node?_ofDependencies hdep)]
      exact List.mem_map_of_mem (List.mem_of_getElem? hdep)
    obtain ⟨done, done', hstart⟩ := matches_startRun ht hinitial
    obtain ⟨out, hout, hsolve⟩ := finishes_of_setUp (fun _ => hcarries) (hsetUp p.circuit hsize)
    obtain ⟨out', hout', hsolve'⟩ :=
      finishes_of_setUp (fun _ => hcarries') (hsetUp thin (Nat.le_refl d.size))
    obtain ⟨_, hthinned, hends⟩ := hstart.finishes ht hout
    obtain rfl := hthinned.unique hout'
    rw [hsolve, hsolve']
    rcases hends with ⟨e, rfl, rfl⟩ | ⟨final, final', all, all', rfl, rfl, hmatches⟩
    · exact Or.inl ⟨e, rfl, rfl⟩
    · show (∃ e, conclude final = .error e ∧ conclude final' = .error e) ∨
        ∃ solution schedule, conclude final = .ok ⟨solution, schedule⟩ ∧
          conclude final' = .ok ⟨solution, schedule.filter _⟩
      rw [conclude, conclude, hmatches.cost, hmatches.steps, hmatches.state,
        hmatches.schedule_eq ht]
      cases narrowCost final.cost with
      | error e => exact Or.inl ⟨e, rfl, rfl⟩
      | ok cost => exact Or.inr ⟨_, _, rfl, rfl⟩

end Greedy

namespace Allocator

variable {a : Allocator} {d : Device} {p : Program} {deps : Dependencies}

/-- A greedy allocator solves the circuit of the dependencies; what is no valid dependency is
refused there as well. -/
theorem allocate_eq_of_greedy (hgreedy : a.config.allocator = .greedy) :
    a.allocate d deps =
      Greedy.solveCircuit d a.config.costs a.config.placement (.ofDependencies deps d.size) deps >>=
        fun outcome =>
          a.finish d deps ⟨.greedy, outcome.solution, some outcome.schedule, none, none⟩ := by
  rw [allocate]
  cases hvalid : deps.validate d.size with
  | error e =>
    rw [Greedy.solveCircuit_of_not_valid (Nat.le_refl d.size) hvalid]
    rfl
  | ok _ =>
    rw [run, hgreedy]
    show (Greedy.solveCircuit _ _ _ _ _ >>= fun outcome => _) >>= _ = _
    rw [bind_assoc]
    rfl

/-- **A paired program is allocated as its dependencies are**, if its wires and its call points can
be counted in 32 bits: both are refused alike, and not because something has gone wrong inside, or
both have the same solution, and the schedule of the dependencies is that of the program without the
statements that have none. -/
theorem allocateProgram_agrees (hgreedy : a.config.allocator = .greedy) (hp : p.validate = .ok ())
    (hsize : p.numQubits ≤ d.size) (hpaired : p.Paired) (hwords : p.Counted) :
    (∃ e, e.isInternal = false ∧ a.allocateProgram d p = .error e ∧
      a.allocate d p.dependencies = .error e) ∨
    ∃ allocation schedule, a.allocateProgram d p = .ok allocation ∧
      allocation.schedule = some schedule ∧
      a.allocate d p.dependencies = .ok { allocation with
        schedule := some (schedule.filter (· ∈ p.dependencies.map Dependency.callPoint)) } := by
  rw [allocate_eq_of_greedy hgreedy, allocateProgram_eq_of_greedy hgreedy hp hwords.wires]
  rcases Greedy.solveCircuit_agrees hp hsize hpaired with
    ⟨e, hfull, hthin⟩ | ⟨solution, schedule, hfull, hthin⟩
  · have hproper := Greedy.proper_solveCircuit d a.config.costs a.config.placement p.circuit
      p.dependencies e hfull
    rw [hfull, hthin]
    exact Or.inl ⟨e, hproper, rfl, rfl⟩
  · simp only [Outcome.bind_of_eq_ok hfull, Outcome.bind_of_eq_ok hthin, finish]
    split_ifs
    · -- a replay looks at the solution only
      cases hreplay : replay d p.dependencies solution a.config.costs with
      | error e => exact Or.inl ⟨e, proper_replay d _ _ _ e hreplay, rfl, rfl⟩
      | ok cost => exact Or.inr ⟨_, schedule, rfl, rfl, rfl⟩
    · exact Or.inr ⟨_, schedule, rfl, rfl, rfl⟩

/-- On a path of four qubits the pair (0, 3) waits for the cheaper (1, 2), which waits for a gate on
qubit 1. The four pairs go in the same order without the one-qubit gates and the empty barrier. -/
theorem allocateProgram_agrees_path :
    let d := Device.ofNodup 4 [(0, 1), (1, 2), (2, 3)] (by decide) (by decide)
    let a : Allocator := ⟨⟨.greedy, .standard, .identity, true⟩, none⟩
    let p : Program := ⟨4, 0, [.gate "h" [0], .cx 0 1, .cx 2 3, .cx 0 3, .barrier [], .gate "x" [1],
      .cx 1 2, .gate "h" [3]]⟩
    p.validate = .ok () ∧ p.Paired ∧ p.Counted ∧
      ∃ allocation, a.allocateProgram d p = .ok allocation ∧
        allocation.schedule = some [4, 0, 1, 5, 2, 6, 3, 7] ∧
        a.allocate d p.dependencies = .ok { allocation with schedule := some [1, 2, 6, 3] } := by
  intro d a p
  have hp : p.validate = .ok () := by decide +kernel
  have hpaired : p.Paired := by decide +kernel
  have hwords : p.Counted := ⟨by decide, by decide⟩
  have hallocate : a.allocateProgram d p = .ok ⟨.greedy, ⟨[0, 1, 2, 3], 14, [⟨1, [.cnot 0 1]⟩,
      ⟨2, [.cnot 2 3]⟩, ⟨6, [.cnot 1 2]⟩, ⟨3, [.swap 3 2, .swap 3 1, .cnot 0 3]⟩]⟩,
      some [4, 0, 1, 5, 2, 6, 3, 7], none, some 14⟩ := by
    decide +kernel
  refine ⟨hp, hpaired, hwords, _, hallocate, rfl, ?_⟩
  rcases allocateProgram_agrees (a := a) (d := d) rfl hp (Nat.le_refl 4) hpaired hwords with
    ⟨e, -, he, -⟩ | ⟨allocation, schedule, hok, hschedule, hdeps⟩
  · rw [hallocate] at he
    cases he
  · rw [hallocate] at hok
    cases hok
    cases hschedule
    exact hdeps

/-- One pair and more classical bits than can be counted together with its qubits: the dependencies
of the program are allocated, and the program has no circuit. -/
theorem allocateProgram_without_circuit :
    let d := Device.ofNodup 2 [(0, 1)] (by decide) (by decide)
    let a : Allocator := ⟨⟨.greedy, .standard, .weighted, true⟩, none⟩
    let p : Program := ⟨2, 4294967295, [.cx 0 1]⟩
    p.validate = .ok () ∧ p.numQubits ≤ d.size ∧ p.Paired ∧
      a.allocateProgram d p = .error .outOfRange ∧
      a.allocate d p.dependencies =
        .ok ⟨.greedy, ⟨[0, 1], 0, [⟨0, [.cnot 0 1]⟩]⟩, some [0], none, some 0⟩ := by
  intro d a p
  exact ⟨by decide +kernel, by decide, by decide +kernel, by decide +kernel, by decide +kernel⟩

end Allocator

end QubitAllocation
