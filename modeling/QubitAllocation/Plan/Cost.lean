import QubitAllocation.Error
import QubitAllocation.Text.Number
import QubitAllocation.Total

/-!
# Costs

A cost model prices swaps, gates against an edge and gates over a bridge; a gate along an edge is
free. Totals are exact; a total is reported only if it fits 32 bits.
-/

namespace QubitAllocation

/-- The price of each kind of operation that is not free. -/
structure CostModel where
  swap : Nat
  reverse : Nat
  longCnot : Nat
  deriving DecidableEq, Repr

namespace CostModel

/-- The usual prices. -/
def standard : CostModel := ⟨7, 4, 10⟩

/-- Prices that fit 32 bits. -/
structure InWords (costs : CostModel) : Prop where
  swap_le : costs.swap ≤ Text.wordMax
  reverse_le : costs.reverse ≤ Text.wordMax
  longCnot_le : costs.longCnot ≤ Text.wordMax

/-- The price of an operation. -/
def price (costs : CostModel) : Operation → Nat
  | .cnot _ _ => 0
  | .rev _ _ => costs.reverse
  | .swap _ _ => costs.swap
  | .longCnot _ _ _ => costs.longCnot

/-- The price of a list of operations. -/
def total (costs : CostModel) (ops : List Operation) : Nat :=
  QubitAllocation.total costs.price ops

end CostModel

/-- A total as a 32-bit cost. -/
def narrowCost (total : Nat) : Except AllocError Nat :=
  if total ≤ Text.wordMax then .ok total else .error (.costOverflow total)

/-- The largest sum that is kept while costs are compared. -/
def sumMax : Nat := 18446744073709551615

/-- Add two costs, stopping at the largest sum. -/
def addCost (a b : Nat) : Nat := min (a + b) sumMax

end QubitAllocation
