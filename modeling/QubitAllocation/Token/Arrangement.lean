/-!
# Arrangements

An arrangement of `n` things is a list that holds each of `0, …, n - 1` once. This file has the
test for it, inverses, exchanges of two entries, and the lexicographic order: `enumerate n` lists
the arrangements in that order and `rank` gives an arrangement's place in the list.
-/

namespace QubitAllocation.Arrangement

/-- Every number has a flag that is not yet set when its turn comes; its turn sets it. -/
def allFresh (seen : Array Bool) : List Nat → Bool
  | [] => true
  | v :: rest =>
    match seen[v]? with
    | some false => allFresh (seen.setIfInBounds v true) rest
    | _ => false

/-- The list holds each number below its length once. -/
def isPermutation (values : List Nat) : Bool :=
  allFresh (Array.replicate values.length false) values

/-- The arrangement that leaves everything in place. -/
def identity (n : Nat) : List Nat := List.range n

/-- Note the place of an entry in a table of places. -/
def notePlace (places : Array Nat) (entry : Nat × Nat) : Array Nat :=
  places.setIfInBounds entry.1 entry.2

/-- The places of `0, 1, …` in a list: the last of several, and zero where there is none. -/
def inverse (values : List Nat) : List Nat :=
  (values.zipIdx.foldl notePlace (Array.replicate values.length 0)).toList

/-- The inverse, if every entry is the index of a place. -/
def inverse? (values : List Nat) : Option (List Nat) :=
  if values.all fun v => v < values.length then some (inverse values) else none

/-- Exchange the entries at two places; a place outside the list changes nothing. -/
def exchange (values : List Nat) (i j : Nat) : List Nat :=
  match values[i]?, values[j]? with
  | some a, some b => (values.set i b).set j a
  | _, _ => values

/-- Exchange entries at several pairs of places, one after the other. -/
def exchangeAll (values : List Nat) (swaps : List (Nat × Nat)) : List Nat :=
  swaps.foldl (fun vs swap => exchange vs swap.1 swap.2) values

/-- The number of arrangements of `n` things. -/
def orders : Nat → Nat
  | 0 => 1
  | n + 1 => (n + 1) * orders n

/-- Count the entries below `x`, onto `acc`. -/
def countBelow (x acc : Nat) : List Nat → Nat
  | [] => acc
  | y :: ys => countBelow x (if y < x then acc + 1 else acc) ys

/-- Continue a lexicographic rank over the last `left` entries: each entry counts the smaller
entries after it. -/
def rankFrom (acc left : Nat) : List Nat → Nat
  | [] => acc
  | x :: xs => rankFrom (countBelow x (acc * left) xs) (left - 1) xs

/-- The lexicographic rank of an arrangement. -/
def rank (values : List Nat) : Nat := rankFrom 0 values.length values

/-- The lists of `k` distinct entries of `pool`, ordered by the order of `pool`. -/
def choices : Nat → List Nat → List (List Nat)
  | 0, _ => [[]]
  | k + 1, pool => pool.flatMap fun x => (choices k (pool.erase x)).map (x :: ·)

/-- All arrangements of `n` things in lexicographic order. -/
def enumerate (n : Nat) : List (List Nat) := choices n (List.range n)

end QubitAllocation.Arrangement
