import QubitAllocation.Proofs.Totals.Exact
import QubitAllocation.Proofs.Totals.Greedy

/-!
# Totals do not wrap

The bounds and the reports of all strategies in one statement. It is about dependencies and devices
such that the number of the ones times the number of qubits of the others is at most `2 ^ 32`, and
about prices of 32 bits.
-/

set_option autoImplicit false

namespace QubitAllocation

open Outcome

/-- **Totals do not wrap, and they are reported as they are.** From any mapping, the totals of direct
and of path-guided allocation stay below `2 ^ 64`, and so do those of greedy allocation and the
prices of its candidates, on any circuit that has no more nodes with a dependency than there are
dependencies. Each of the three is refused on account of its cost exactly if the exact total of the
operations that it emits does not fit 32 bits, and names that total; and else it reports the total.
The total of the swaps of path-guided allocation is never what is refused, and its counts of chains
and of their swaps stay below `2 ^ 32`. Exact allocation reports the least total of any steps that
meet the dependencies in order, or is refused exactly if that does not fit. -/
theorem totals_never_wrap {d : Device} {costs : CostModel} {deps : Dependencies}
    (hcosts : costs.InWords) (hvalid : deps.validate d.size = .ok ())
    (hsmall : deps.length * d.size ≤ 2 ^ 32) :
    (∀ initial, Direct.TotalsBelow (2 ^ 64) d costs deps initial ∧
      Bills costs (Direct.emitted d deps initial) (Direct.build d costs deps initial)) ∧
    (∀ initial, PathGuided.TotalsBelow (2 ^ 64) d costs deps initial ∧
      PathGuided.ChainsBelow (2 ^ 32) d costs deps initial ∧
      Bills costs ((PathGuided.emitted d costs deps initial).map Prod.fst)
        ((PathGuided.build d costs deps initial).map Prod.fst) ∧
      ∀ steps final cost, PathGuided.emitted d costs deps initial = .ok (steps, final) →
        narrowCost final.total = .ok cost →
        ∃ swapCost, narrowCost final.swapTotal = .ok swapCost) ∧
    (∀ c : Circuit, (c.nodes.toList.map Node.callPoint).Nodup ∨ c = .ofDependencies deps d.size →
      c.load deps ≤ deps.length) ∧
    (∀ c : Circuit, c.load deps ≤ deps.length → Greedy.TotalsBelow (2 ^ 64) d costs c deps) ∧
    (∀ placement c, Bills costs ((Greedy.emitted d costs placement c deps).map Greedy.Run.steps)
      ((Greedy.solveCircuit d costs placement c deps).map Greedy.Outcome.solution)) ∧
    (∀ placement, Bills costs
      ((Greedy.emitted d costs placement (.ofDependencies deps d.size) deps).map Greedy.Run.steps)
      (Greedy.solve d costs placement deps)) ∧
    ∀ shared, Exact.Suits d shared →
      (d.size ≤ SwapTable.maxSize →
        Exact.BillsLeast d costs deps (Exact.solve d costs shared deps)) ∧
      (SwapTable.maxSize < d.size → Unbilled (Exact.solve d costs shared deps)) := by
  refine ⟨fun initial => ⟨?_, ?_⟩, fun initial => ⟨?_, ?_, ?_, ?_⟩, ?_, ?_, ?_, ?_, ?_⟩
  · exact Direct.totalsBelow hcosts hvalid hsmall initial
  · exact Direct.bills_build d costs deps initial
  · exact PathGuided.totalsBelow hcosts hsmall initial
  · exact PathGuided.chainsBelow hsmall initial
  · exact PathGuided.bills_build d costs deps initial
  · exact fun steps final cost hemitted hcost =>
      PathGuided.exists_narrow_swapTotal hemitted hcost
  · rintro c (hnodup | rfl)
    · exact Circuit.load_le_of_nodup deps hnodup
    · exact Circuit.load_ofDependencies_le deps d.size
  · exact fun c hload => Greedy.totalsBelow hcosts hvalid hsmall hload
  · exact fun placement c => Greedy.bills_solveCircuit hcosts placement c
  · exact fun placement => Greedy.bills_solve hcosts placement
  · exact fun shared hsuits => ⟨Exact.billsLeast_solve hvalid hsuits,
      fun hlarge => Exact.unbilled_solve_of_large hlarge hsuits⟩

/-- Two qubits with an edge one way and four gates to and fro, at the largest prices: every strategy
has to pay for two of the gates, by reversing or by swapping, and two do not fit 32 bits. -/
theorem totals_never_wrap_alternating :
    let d := Device.ofNodup 2 [(0, 1)] (by decide) (by decide)
    let costs : CostModel := ⟨Text.wordMax, Text.wordMax, Text.wordMax⟩
    let deps : Dependencies := [⟨0, [⟨0, 1⟩]⟩, ⟨1, [⟨1, 0⟩]⟩, ⟨2, [⟨0, 1⟩]⟩, ⟨3, [⟨1, 0⟩]⟩]
    costs.InWords ∧ deps.validate d.size = .ok () ∧ deps.length * d.size ≤ 2 ^ 32 ∧
      Direct.build d costs deps [0, 1] = .error (.costOverflow 8589934590) ∧
      (PathGuided.build d costs deps [0, 1]).map Prod.fst = .error (.costOverflow 8589934590) ∧
      Greedy.solve d costs .identity deps = .error (.costOverflow 8589934590) ∧
      ∃ m, Exact.LeastTotal d costs deps m ∧ Text.wordMax < m ∧ 8589934590 = min m sumMax := by
  intro d costs deps
  have hcosts : costs.InWords := ⟨le_rfl, le_rfl, le_rfl⟩
  have hvalid : deps.validate d.size = .ok () := by decide
  have hsmall : deps.length * d.size ≤ 2 ^ 32 := by decide
  obtain ⟨hdirect, hguided, -, -, -, hgreedy, hexact⟩ := totals_never_wrap hcosts hvalid hsmall
  let reversing : List Step :=
    [⟨0, [.cnot 0 1]⟩, ⟨1, [.rev 1 0]⟩, ⟨2, [.cnot 0 1]⟩, ⟨3, [.rev 1 0]⟩]
  let swapping : List Step :=
    [⟨0, [.cnot 0 1]⟩, ⟨1, [.swap 1 0, .cnot 1 0]⟩, ⟨2, [.rev 0 1]⟩, ⟨3, [.cnot 1 0]⟩]
  refine ⟨hcosts, hvalid, hsmall, ?_, ?_, ?_, ?_⟩
  · exact ((hdirect [0, 1]).2.overflow_iff _).2
      ⟨reversing, by decide +kernel, by decide +kernel, by decide⟩
  · exact ((hguided [0, 1]).2.2.1.overflow_iff _).2
      ⟨swapping, by decide +kernel, by decide +kernel, by decide⟩
  · exact ((hgreedy .identity).overflow_iff _).2
      ⟨reversing, by decide +kernel, by decide +kernel, by decide⟩
  · have hsize : d.size ≤ SwapTable.maxSize := by decide
    have hsolve : Exact.solve d costs none deps = .error (.costOverflow 8589934590) := by
      decide +kernel
    exact (((hexact none (Exact.suits_none d)).1 hsize).overflow_iff _).1 hsolve

end QubitAllocation
