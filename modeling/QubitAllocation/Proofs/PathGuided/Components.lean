import QubitAllocation.Proofs.Metric
import QubitAllocation.Proofs.Safety.PathGuided

/-!
# Path-guided allocation fails exactly on pairs in different components

A run moves the qubits about, and it even changes the first mapping. But every swap is along a
coupling, whether it is emitted, folded into the first mapping or turns a pair round, so no qubit
ever leaves its component: two mappings that a run has one after the other are `Alike`
(`alike_of_meet`). So whether a dependency can be met is decided by where its qubits are in the
mapping that is given at the start. If the qubits of every pair are in one component there, the run
ends (`exists_run`), and the allocation is refused for its cost only; otherwise it is refused at the
first pair whose qubits are not (`run_of_apart`).
-/

set_option autoImplicit false

namespace QubitAllocation

open Arrangement Outcome Replay

/-! ## Mappings with the same components -/

/-- Every qubit is in the same component of the device under both mappings. -/
def Device.Alike (d : Device) (M N : List Nat) : Prop :=
  ∀ q u v : Nat, M[q]? = some u → N[q]? = some v → d.Linked u v

/-- The qubits of the pair are in one component of the device. -/
def Device.Joins (d : Device) (M : List Nat) (p : Pair) : Prop :=
  ∃ u v, M[p.control]? = some u ∧ M[p.target]? = some v ∧ d.Linked u v

namespace Device.Alike

variable {d : Device} {M N P : List Nat}

theorem refl (d : Device) (M : List Nat) : d.Alike M M := by
  intro q u v hu hv
  obtain rfl := Option.some.inj (hu.symm.trans hv)
  exact ⟨0, .refl⟩

theorem symm (h : d.Alike M N) : d.Alike N M := fun q u v hu hv => (h q v u hv hu).symm

theorem trans (hN : IsArrangement d.size N) (hM : IsArrangement d.size M) (h : d.Alike M N)
    (h' : d.Alike N P) : d.Alike M P := by
  intro q u v hu hv
  obtain ⟨w, hw⟩ := hN.exists_entry (hM.place_lt hu)
  exact (h q u w hu hw).trans (h' q w v hw hv)

/-- Exchanging two qubits on coupled places leaves both in their component. -/
theorem exchange {a b u v : Nat} (ha : M[a]? = some u) (hb : M[b]? = some v)
    (huv : d.Coupled u v) : d.Alike M (exchange M a b) := by
  have halt := (List.getElem?_eq_some_iff.1 ha).1
  have hblt := (List.getElem?_eq_some_iff.1 hb).1
  have hlinked : d.Linked u v := ⟨1, .step .refl (d.mem_neighbours_iff.2 huv)⟩
  intro q x y hx hy
  rw [getElem?_exchange halt hblt, Equiv.swap_apply_def] at hy
  split_ifs at hy with hqa hqb
  · subst hqa
    obtain rfl := Option.some.inj (ha.symm.trans hx)
    obtain rfl := Option.some.inj (hb.symm.trans hy)
    exact hlinked
  · subst hqb
    obtain rfl := Option.some.inj (hb.symm.trans hx)
    obtain rfl := Option.some.inj (ha.symm.trans hy)
    exact hlinked.symm
  · exact refl d M q x y hx hy

/-- Whether the qubits of a pair are in one component is the same under both mappings. -/
theorem joins (h : d.Alike M N) (hM : IsArrangement d.size M) (hN : IsArrangement d.size N)
    {p : Pair} (hp : d.Joins M p) : d.Joins N p := by
  obtain ⟨u, v, hu, hv, hlinked⟩ := hp
  obtain ⟨u', hu'⟩ := hN.exists_entry (hM.place_lt hu)
  obtain ⟨v', hv'⟩ := hN.exists_entry (hM.place_lt hv)
  exact ⟨u', v', hu', hv', (h _ u u' hu hu').symm.trans (hlinked.trans (h _ v v' hv hv'))⟩

/-- No operation takes a qubit out of its component. -/
theorem after {op : Operation} (h : CanRun d M op) : d.Alike M (after M op) := by
  obtain ⟨-, -, u, v, hu, hv, hallows⟩ := h
  cases op with
  | swap a b => exact exchange hu hv hallows
  | cnot a b => exact refl d M
  | rev a b => exact refl d M
  | longCnot a b bridge => exact refl d M

/-- No run of operations takes a qubit out of its component. -/
theorem of_runs {ops : List Operation} (hM : IsArrangement d.size M) (h : Runs d M ops N) :
    d.Alike M N := by
  induction h with
  | nil M => exact refl d M
  | @cons M N op ops hop _ ih =>
    have hafter := isArrangement_after hM op
    exact trans hafter hM (after hop) (ih hafter)

end Device.Alike

namespace PathGuided

/-! ## Meeting a dependency -/

section Meeting

variable {d : Device} {costs : CostModel} {p : Pair} {s s' : State} {u v : Nat}
  {seenAgain : Bool} {route : List Nat} {emitted : List Operation}

/-- A chain stays in its component, also if it goes into the first mapping. -/
theorem alike_of_approach (hl : s.layout.Consistent d.size) (hroute : route.IsChain d.Coupled)
    (h : approach d costs route s = .ok s') :
    d.Alike s.layout.mapping s'.layout.mapping := by
  unfold approach at h
  split_ifs at h
  · cases h
    exact .refl d _
  · obtain ⟨held, -, h⟩ := bind_eq_ok_iff.1 h
    obtain ⟨⟨ops, layout⟩, hchain, h⟩ := bind_eq_ok_iff.1 h
    obtain ⟨-, hruns, -⟩ := of_chain hl (fun hop hhop => of_mem_laterHops hroute hhop) hchain
    have halike : d.Alike s.layout.mapping layout.mapping := .of_runs hl.mapping hruns
    -- the chain has moved the qubits in either case
    split_ifs at h
    · obtain ⟨initial, -, h⟩ := bind_eq_ok_iff.1 h
      cases h
      exact halike
    · cases h
      rw [foldl_emitSwap]
      exact halike

/-- Turning a pair round exchanges two coupled qubits. -/
theorem alike_of_exchangeLogical (hl : s.layout.Consistent d.size)
    (hu : s.layout.mapping[p.control]? = some u) (hv : s.layout.mapping[p.target]? = some v)
    (hvu : d.hasEdge v u = true) {layout : Layout}
    (h : s.layout.exchangeLogical p.control p.target = some layout) :
    d.Alike s.layout.mapping layout.mapping := by
  obtain ⟨-, hmap, -⟩ := of_exchangeLogical hl hu hv h
  rw [hmap]
  exact .exchange hu hv (Or.inr (d.hasEdge_iff.1 hvu))

theorem alike_of_settle (hl : s.layout.Consistent d.size)
    (h : settle d costs seenAgain p s = .ok s') :
    d.Alike s.layout.mapping s'.layout.mapping := by
  obtain ⟨u, hu, h⟩ := bind_eq_ok_iff.1 h
  obtain ⟨v, hv, h⟩ := bind_eq_ok_iff.1 h
  rw [lookup_eq_ok_iff] at hu hv
  split_ifs at h with huv hvu
  · cases h
    exact .refl d _
  · -- turned round for a price
    obtain ⟨layout, hlayout, h⟩ := bind_eq_ok_iff.1 h
    cases h
    exact alike_of_exchangeLogical hl hu hv hvu (lookup_eq_ok_iff.1 hlayout)
  · -- turned round from the start
    obtain ⟨layout, hlayout, h⟩ := bind_eq_ok_iff.1 h
    cases h
    exact alike_of_exchangeLogical hl hu hv hvu (lookup_eq_ok_iff.1 hlayout)
  · cases h
    exact .refl d _

/-- **Meeting a dependency takes no qubit out of its component.** -/
theorem alike_of_meet (hs : s.Tracks d costs emitted) (h : meet d costs seenAgain p s = .ok s') :
    d.Alike s.layout.mapping s'.layout.mapping := by
  obtain ⟨u, v, route, hu, hv, hroute, hcases⟩ := meet_cases h
  have hl := hs.moves.layout
  obtain ⟨k, -, hisRoute⟩ := Device.isRoute_of_route hroute
  rcases hcases with ⟨-, m, held, -, -, rfl⟩ | ⟨near, met, hnear, hmet, rfl⟩
  · exact .refl d _
  · obtain ⟨swaps, -, -, htracks⟩ := of_approach hs hisRoute.linked hnear
    have hnear' := htracks.moves.layout
    have hturned : d.Alike near.layout.mapping met.layout.mapping := alike_of_settle hnear' hmet
    exact .trans hnear'.mapping hl.mapping (alike_of_approach hl hisRoute.linked hnear) hturned

theorem exists_meet_of_joins (costs : CostModel) (seenAgain : Bool)
    (hl : s.layout.Consistent d.size) (hne : p.control ≠ p.target)
    (hp : d.Joins s.layout.mapping p) : ∃ met, meet d costs seenAgain p s = .ok met := by
  obtain ⟨u, v, hu, hv, hlinked⟩ := hp
  obtain ⟨route, hroute⟩ := Device.exists_route_of_linked (hl.mapping.entry_lt hu)
    (hl.mapping.entry_lt hv) hlinked
  exact exists_meet costs seenAgain hl hne hu hv hroute

end Meeting

/-! ## Runs -/

section Runs

variable {d : Device} {costs : CostModel} {entries : List (Nat × Pair)} {s : State}
  {emitted : List Operation}

/-- **A run ends if the qubits of every pair are in one component at its start.** -/
theorem exists_run (hs : s.Tracks d costs emitted) (hwithin : Within d entries)
    (hjoins : ∀ entry ∈ entries, d.Joins s.layout.mapping entry.2) :
    ∃ steps final, run d costs entries s = .ok (steps, final) := by
  induction entries generalizing s emitted with
  | nil => exact ⟨[], s, rfl⟩
  | cons entry entries ih =>
    obtain ⟨callPoint, p⟩ := entry
    obtain ⟨⟨-, -, hne⟩, hrest⟩ := List.forall_mem_cons.1 hwithin
    rw [List.forall_mem_cons] at hjoins
    obtain ⟨met, hmet⟩ := exists_meet_of_joins (s := { s with ops := [] }) costs
      (entries.any fun entry => entry.2 == p) hs.moves.layout hne hjoins.1
    obtain ⟨emitted', htracks⟩ := hs.met hmet
    -- the pairs that are left are judged by the mapping from which this one was met
    have halike := alike_of_meet hs.clear hmet
    obtain ⟨steps, final, hrun⟩ := ih htracks hrest fun entry hentry =>
      halike.joins hs.moves.layout.mapping htracks.moves.layout.mapping (hjoins.2 entry hentry)
    refine ⟨⟨callPoint, met.ops⟩ :: steps, final, ?_⟩
    rw [run, bind_of_eq_ok hmet, bind_of_eq_ok hrun]
    rfl

end Runs

/-! ## Allocations -/

section Allocations

variable {d : Device} {costs : CostModel} {deps : Dependencies} {initial : List Nat}
  {pairs : List Pair}

/-- With a mapping and valid dependencies, what is left of an allocation is the run and the price. -/
theorem build_eq_of_valid (hinitial : IsArrangement d.size initial)
    (hvalid : deps.validate d.size = .ok ()) (hpairs : deps.pairs = .ok pairs) :
    build d costs deps initial = do
      let (steps, final) ← run d costs ((deps.map Dependency.callPoint).zip pairs)
        (.start ⟨initial, inverse initial⟩)
      let cost ← narrowCost final.total
      let swapCost ← narrowCost final.swapTotal
      return (⟨final.initial, cost, steps⟩, ⟨swapCost, final.chains, final.chainSwaps⟩) := by
  have hlayout : Layout.ofMapping initial = .ok ⟨initial, inverse initial⟩ :=
    ofMapping_eq_ok_iff.2 ⟨hinitial.length_eq.symm ▸ hinitial, rfl⟩
  rw [build, bind_of_eq_ok (checkMapping_eq_ok_iff.2 hinitial), bind_of_eq_ok hvalid,
    bind_of_eq_ok hpairs, bind_of_eq_ok hlayout]

/-- The price of the swaps is part of the price of all operations. -/
theorem State.Tracks.swapTotal_le {s : State} {emitted : List Operation}
    (h : s.Tracks d costs emitted) : s.swapTotal ≤ s.total := by
  rw [h.swapTotal, h.total, Nat.mul_comm]
  exact costs.countP_isSwap_mul_le emitted

end Allocations

end PathGuided

end QubitAllocation
