import QubitAllocation.Config.Basic
import QubitAllocation.Replay.Basic
import QubitAllocation.Strategy.Direct
import QubitAllocation.Strategy.Exact
import QubitAllocation.Strategy.Greedy
import QubitAllocation.Strategy.PathGuided

/-!
# Allocators

An allocator runs the strategy of its configuration and, if it is asked to, replays the solution.
A program is allocated through its dependencies; the greedy strategy alone also schedules its other
statements, for which the program must have a circuit.
-/

namespace QubitAllocation

/-- What an allocation gives: the solution, the order of commitment of a greedy run, the statistics
of a path-guided one, and the price that a replay found. -/
structure Allocation where
  allocator : AllocatorKind
  solution : Solution
  schedule : Option (List Nat)
  stats : Option PathGuided.Stats
  verifiedCost : Option Nat
  deriving DecidableEq, Repr

/-- A checked configuration and perhaps a swap table to share. -/
structure Allocator where
  config : Config
  table : Option SwapTable

namespace Allocator

/-- The allocator of a configuration. -/
def build (config : Config) (table : Option SwapTable) : Except AllocError Allocator := do
  config.validate
  return ⟨config, table⟩

/-- Replay a solution if the configuration says so. -/
def finish (a : Allocator) (d : Device) (deps : Dependencies) (allocation : Allocation) :
    Except AllocError Allocation :=
  if a.config.verify then do
    let cost ← replay d deps allocation.solution a.config.costs
    return { allocation with verifiedCost := some cost }
  else .ok allocation

/-- Run the strategy on dependencies. -/
def run (a : Allocator) (d : Device) (deps : Dependencies) : Except AllocError Allocation :=
  let config := a.config
  match config.allocator with
  | .dynprog => do
    let solution ← Exact.solve d config.costs a.table deps
    return ⟨.dynprog, solution, none, none, none⟩
  | .greedy => do
    let outcome ←
      Greedy.solveCircuit d config.costs config.placement (.ofDependencies deps d.size) deps
    return ⟨.greedy, outcome.solution, some outcome.schedule, none, none⟩
  | .pathGuided => do
    let initial ← config.placement.find d deps
    let (solution, stats) ← PathGuided.build d config.costs deps initial
    return ⟨.pathGuided, solution, none, some stats, none⟩
  | .direct => do
    let initial ← config.placement.find d deps
    let solution ← Direct.build d config.costs deps initial
    return ⟨.direct, solution, none, none, none⟩

/-- Allocate dependencies. -/
def allocate (a : Allocator) (d : Device) (deps : Dependencies) : Except AllocError Allocation := do
  deps.validate d.size
  let allocation ← a.run d deps
  a.finish d deps allocation

/-- Allocate a program. -/
def allocateProgram (a : Allocator) (d : Device) (p : Program) : Except AllocError Allocation := do
  p.validate
  let deps := p.dependencies
  if a.config.allocator = .greedy then
    let circuit ← AllocError.lookup p.circuit?
    let outcome ← Greedy.solveCircuit d a.config.costs a.config.placement circuit deps
    a.finish d deps ⟨.greedy, outcome.solution, some outcome.schedule, none, none⟩
  else a.allocate d deps

end Allocator

end QubitAllocation
