import QubitAllocation.Layout
import QubitAllocation.Proofs.Arrangement

/-!
# Layouts stay consistent

A layout is consistent if its mapping is an arrangement and its assignment is the inverse of the
mapping. Then the two sides answer each other's questions (`Layout.Consistent.assignment_iff`), and
both ways to exchange two qubits succeed on qubits of the device and keep the layout consistent
(`Layout.Consistent.exchangeLogical`, `Layout.Consistent.exchangePhysical_eq`).
-/

set_option autoImplicit false

namespace QubitAllocation.Layout

open Arrangement

/-- The mapping is an arrangement of `n` qubits and the assignment undoes it. -/
structure Consistent (n : Nat) (l : Layout) : Prop where
  mapping : IsArrangement n l.mapping
  assignment : l.assignment = inverse l.mapping

namespace Consistent

variable {n : Nat} {l : Layout} {a b u v : Nat}

theorem assignment_iff (h : l.Consistent n) :
    l.assignment[u]? = some a ↔ l.mapping[a]? = some u := by
  rw [h.assignment]
  exact getElem?_inverse_iff h.mapping

theorem length_assignment (h : l.Consistent n) : l.assignment.length = n := by
  rw [h.assignment, h.mapping.inverse.length_eq]

theorem exists_logical (h : l.Consistent n) (hu : u < n) :
    ∃ a, l.logical? u = some a ∧ l.mapping[a]? = some u := by
  obtain ⟨a, ha⟩ := h.mapping.exists_place hu
  exact ⟨a, h.assignment_iff.2 ha, ha⟩

/-- Two logical qubits of the device can be exchanged. -/
theorem exchangeLogical (h : l.Consistent n) (ha : l.mapping[a]? = some u)
    (hb : l.mapping[b]? = some v) :
    ∃ l', l.exchangeLogical a b = some l' ∧ l'.mapping = exchange l.mapping a b ∧
      l'.assignment = exchange l.assignment u v ∧ l'.Consistent n := by
  refine ⟨⟨exchange l.mapping a b, exchange l.assignment u v⟩, ?_, rfl, rfl, h.mapping.exchange a b,
    ?_⟩
  · rw [Layout.exchangeLogical, physical?, physical?, ha, hb]
    rfl
  · show exchange l.assignment u v = inverse (exchange l.mapping a b)
    rw [inverse_exchange h.mapping ha hb, h.assignment]

/-- What two physical qubits hold is exchanged by exchanging the two logical qubits. -/
theorem exchangePhysical_eq (h : l.Consistent n) (ha : l.mapping[a]? = some u)
    (hb : l.mapping[b]? = some v) : l.exchangePhysical u v = l.exchangeLogical a b := by
  rw [Layout.exchangePhysical, logical?, logical?, h.assignment_iff.2 ha, h.assignment_iff.2 hb]
  rfl

end Consistent

end QubitAllocation.Layout
