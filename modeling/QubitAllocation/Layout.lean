import QubitAllocation.Error
import QubitAllocation.Token.Arrangement

/-!
# Layouts

A mapping lists the physical qubit of each logical qubit and an assignment the logical qubit of
each physical one. A `Layout` keeps both and exchanges entries in both at once.
-/

namespace QubitAllocation

/-- Refuse a list that is no arrangement of `size` qubits; the length is checked first. -/
def checkMapping (mapping : List Nat) (size : Nat) : Except AllocError Unit :=
  if mapping.length ≠ size then
    .error (.invalidMapping mapping (.wrongLength size mapping.length))
  else if Arrangement.isPermutation mapping then .ok ()
  else .error (.invalidMapping mapping .notPermutation)

/-- A mapping and the assignment that undoes it. -/
structure Layout where
  mapping : List Nat
  assignment : List Nat
  deriving DecidableEq, Repr

namespace Layout

/-- Every logical qubit on the physical qubit of the same index. -/
def trivial (n : Nat) : Layout := ⟨Arrangement.identity n, Arrangement.identity n⟩

/-- The layout of a mapping. -/
def ofMapping (mapping : List Nat) : Except AllocError Layout := do
  checkMapping mapping mapping.length
  return ⟨mapping, Arrangement.inverse mapping⟩

/-- The number of qubits. -/
def size (l : Layout) : Nat := l.mapping.length

/-- The physical qubit that holds a logical one. -/
def physical? (l : Layout) (logical : Nat) : Option Nat := l.mapping[logical]?

/-- The logical qubit that a physical one holds. -/
def logical? (l : Layout) (physical : Nat) : Option Nat := l.assignment[physical]?

/-- Exchange the places of two logical qubits. -/
def exchangeLogical (l : Layout) (a b : Nat) : Option Layout := do
  let u ← l.physical? a
  let v ← l.physical? b
  return ⟨Arrangement.exchange l.mapping a b, Arrangement.exchange l.assignment u v⟩

/-- Exchange the logical qubits that two physical qubits hold. -/
def exchangePhysical (l : Layout) (u v : Nat) : Option Layout := do
  let a ← l.logical? u
  let b ← l.logical? v
  l.exchangeLogical a b

end Layout

end QubitAllocation
