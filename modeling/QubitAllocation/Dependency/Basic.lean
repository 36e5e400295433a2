import QubitAllocation.Error
import QubitAllocation.Text.Blank
import QubitAllocation.Text.Number

/-!
# Dependencies

A dependency belongs to a call point of a program and carries the pairs of logical qubits that it
wants a gate on. Allocation asks for exactly one pair at each call point.
-/

namespace QubitAllocation

/-- The pairs that a call point depends on. -/
structure Dependency where
  callPoint : Nat
  pairs : List Pair
  deriving DecidableEq, Repr

namespace Dependency

/-- A dependency on one pair. -/
def single (callPoint : Nat) (pair : Pair) : Dependency := ⟨callPoint, [pair]⟩

/-- The only pair of a dependency. -/
def pair (d : Dependency) : Except AllocError Pair :=
  match d.pairs with
  | [p] => .ok p
  | [] => .error (.emptyDependency d.callPoint)
  | ps => .error (.multipleDependencies d.callPoint ps.length)

/-- Check that there is one pair, of two distinct qubits below `size`. -/
def validate (size : Nat) (d : Dependency) : Except AllocError Unit := do
  let p ← d.pair
  if size ≤ p.control then .error (.qubitOutOfRange p.control size)
  else if size ≤ p.target then .error (.qubitOutOfRange p.target size)
  else if p.control = p.target then .error (.selfDependency d.callPoint p.control)
  else .ok ()

end Dependency

/-- Dependencies in the order in which they are to be met. -/
abbrev Dependencies := List Dependency

namespace Dependencies

/-- One dependency for each pair, with call points counted from zero. -/
def ofPairs (pairs : List Pair) : Dependencies :=
  pairs.zipIdx.map fun entry => Dependency.single entry.2 entry.1

/-- The larger of `size` and the number after both qubits of a pair, if 32 bits hold that. -/
def widen (size : Nat) (p : Pair) : Option Nat :=
  let last := max p.control p.target
  if last < Text.wordMax then some (max size (last + 1)) else none

/-- The smallest size of a device that has every qubit named, if 32 bits hold it. -/
def numQubits (deps : Dependencies) : Option Nat :=
  (deps.flatMap Dependency.pairs).foldlM widen 0

/-- Check every dependency; the first fault is reported. -/
def validate (deps : Dependencies) (size : Nat) : Except AllocError Unit :=
  deps.forM (Dependency.validate size)

/-- The only pair of every dependency. -/
def pairs (deps : Dependencies) : Except AllocError (List Pair) :=
  deps.mapM Dependency.pair

end Dependencies

end QubitAllocation
