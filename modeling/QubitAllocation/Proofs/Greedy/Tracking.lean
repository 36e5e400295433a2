import QubitAllocation.Proofs.Replay.Tracking
import QubitAllocation.Strategy.Greedy

/-!
# The greedy state tracks its operations

At all times the operations emitted so far run from the state's first mapping to its layout, and
every qubit that they touch is marked as used. Each kind of change to the state keeps this: marking
qubits, exchanging two unused ones in the first mapping, swapping, and emitting a gate.
-/

set_option autoImplicit false

namespace QubitAllocation.Greedy

open Arrangement Replay

/-- The operations run from the state's first mapping to its layout, and they touch used qubits
only. -/
abbrev State.Tracks (d : Device) (s : State) (ops : List Operation) : Prop :=
  Replay.Tracks d s.layout s.initial s.used ops

namespace State.Tracks

variable {d : Device} {s : State} {ops : List Operation} {a b u v : Nat}

theorem mem_used_use {q r : Nat} : r ∈ (s.use q).used ↔ r = q ∨ r ∈ s.used := List.mem_insert_iff

theorem use (h : s.Tracks d ops) (q : Nat) : (s.use q).Tracks d ops :=
  h.mono fun _ hr => mem_used_use.2 (Or.inr hr)

theorem foldl_use (h : s.Tracks d ops) (qs : List Nat) : (qs.foldl State.use s).Tracks d ops := by
  induction qs generalizing s with
  | nil => exact h
  | cons q qs ih => exact ih (use h q)

/-- Two unused qubits can be exchanged from the start. -/
theorem relocate (h : s.Tracks d ops) (ha : s.layout.mapping[a]? = some u)
    (hb : s.layout.mapping[b]? = some v) (hau : a ∉ s.used) (hbu : b ∉ s.used) :
    ∃ layout, s.layout.exchangeLogical a b = some layout ∧
      layout.mapping = exchange s.layout.mapping a b ∧
      ({ s with layout := layout, initial := exchange s.initial a b } : State).Tracks d ops :=
  h.exchangeUnused ha hb hau hbu

/-- The qubits on two coupled places can be swapped. -/
theorem swap (h : s.Tracks d ops) (ha : s.layout.mapping[a]? = some u)
    (hb : s.layout.mapping[b]? = some v) (huv : d.Coupled u v) :
    ∃ layout, s.layout.exchangePhysical u v = some layout ∧
      layout.assignment = exchange s.layout.assignment u v ∧
      ({ (s.use a).use b with layout := layout } : State).Tracks d (ops ++ [.swap a b]) := by
  have hau : a ∈ ((s.use a).use b).used := mem_used_use.2 (Or.inr (mem_used_use.2 (Or.inl rfl)))
  have hbu : b ∈ ((s.use a).use b).used := mem_used_use.2 (Or.inl rfl)
  obtain ⟨layout, hlayout, -, hassign, hswap⟩ :=
    Replay.Tracks.swap (use (use h a) b) ha hb huv hau hbu
  exact ⟨layout, (h.layout.exchangePhysical_eq ha hb).trans hlayout, hassign, hswap⟩

/-- A gate that can be run may be emitted. -/
theorem gate (h : s.Tracks d ops) {gate : Operation} {p : Pair}
    (hcan : CanRun d s.layout.mapping gate) (hswap : gate.isSwap = false)
    (hoperands : gate.operands = (p.control, p.target)) :
    ((s.use p.control).use p.target).Tracks d (ops ++ [gate]) := by
  refine Replay.Tracks.gate (use (use h p.control) p.target) hcan hswap hoperands ?_ ?_
  · exact mem_used_use.2 (Or.inr (mem_used_use.2 (Or.inl rfl)))
  · exact mem_used_use.2 (Or.inl rfl)

end State.Tracks

end QubitAllocation.Greedy
