/-!
# Sums over lists

The sum of a quantity over the elements of a list.
-/

namespace QubitAllocation

/-- The sum of `f` over a list. -/
def total {α : Type} (f : α → Nat) : List α → Nat
  | [] => 0
  | x :: xs => f x + total f xs

end QubitAllocation
