/-!
# First best choice

Wherever several candidates are on offer, the first one that no other beats is taken.
-/

namespace QubitAllocation

variable {α : Type}

/-- Keep the better of two, the earlier one if neither beats the other. -/
def better (beats : α → α → Bool) (best x : α) : α := if beats x best then x else best

/-- The first element that no later one beats. -/
def firstBest (beats : α → α → Bool) : List α → Option α
  | [] => none
  | x :: xs => some (xs.foldl (better beats) x)

/-- The first element with the least key. -/
def firstLeast (key : α → Nat) (xs : List α) : Option α :=
  firstBest (fun x y => key x < key y) xs

end QubitAllocation
