import QubitAllocation.Proofs.Arrangement
import QubitAllocation.Proofs.Coupling
import QubitAllocation.Proofs.Outcome
import QubitAllocation.Replay.Basic

/-!
# Runs of operations

`Runs d M ops M'` says that the operations can be run one after the other on the device `d` from the
mapping `M`, and that they end in the mapping `M'`. Each operation names logical qubits of the
device and must be allowed where the mapping puts them at that moment; swaps exchange two entries
of the mapping and nothing else changes it.

The loop that runs operations on a layout computes this relation on the layout's mapping, and adds
up the prices of the operations (`runs_of_foldlM_runOp`, `foldlM_runOp_of_runs`).
-/

set_option autoImplicit false

namespace QubitAllocation.Replay

open Arrangement Outcome

/-! ## The relation -/

/-- The device allows the operation with its operands on the physical qubits `u` and `v`. -/
def Allows (d : Device) (u v : Nat) : Operation → Prop
  | .swap _ _ => d.Coupled u v
  | .cnot _ _ => (u, v) ∈ d.edges
  | .rev _ _ => (v, u) ∈ d.edges ∧ (u, v) ∉ d.edges
  | .longCnot _ _ bridge => d.Coupled u bridge ∧ d.Coupled bridge v

/-- The operation names logical qubits of the device and is allowed where the mapping puts them. -/
def CanRun (d : Device) (M : List Nat) (op : Operation) : Prop :=
  op.operands.1 < d.size ∧ op.operands.2 < d.size ∧
    ∃ u v, M[op.operands.1]? = some u ∧ M[op.operands.2]? = some v ∧ Allows d u v op

/-- The mapping after an operation. -/
def after (M : List Nat) : Operation → List Nat
  | .swap a b => exchange M a b
  | _ => M

/-- The operations can be run in order from the first mapping and lead to the second. -/
inductive Runs (d : Device) : List Nat → List Operation → List Nat → Prop
  | nil (M : List Nat) : Runs d M [] M
  | cons {M M' : List Nat} {op : Operation} {ops : List Operation} :
      CanRun d M op → Runs d (after M op) ops M' → Runs d M (op :: ops) M'

section Runs

variable {d : Device} {M M' : List Nat} {n : Nat} {op : Operation} {ops : List Operation}

/-- What a mapping allows can be run from it. -/
theorem canRun_of_allows {u v : Nat} (hM : IsArrangement d.size M)
    (hu : M[op.operands.1]? = some u) (hv : M[op.operands.2]? = some v) (h : Allows d u v op) :
    CanRun d M op :=
  ⟨hM.place_lt hu, hM.place_lt hv, u, v, hu, hv, h⟩

theorem after_of_not_isSwap (h : op.isSwap = false) : after M op = M := by
  cases op with
  | swap a b => cases h
  | cnot a b => rfl
  | rev a b => rfl
  | longCnot a b w => rfl

theorem runs_nil_iff : Runs d M [] M' ↔ M = M' := by
  constructor
  · intro h
    cases h
    rfl
  · rintro rfl
    exact .nil M

theorem runs_cons_iff : Runs d M (op :: ops) M' ↔ CanRun d M op ∧ Runs d (after M op) ops M' := by
  constructor
  · intro h
    cases h with
    | cons hop hops => exact ⟨hop, hops⟩
  · rintro ⟨hop, hops⟩
    exact .cons hop hops

theorem runs_append_iff {ops' : List Operation} :
    Runs d M (ops ++ ops') M' ↔ ∃ N, Runs d M ops N ∧ Runs d N ops' M' := by
  induction ops generalizing M with
  | nil =>
    constructor
    · intro h
      exact ⟨M, .nil M, h⟩
    · rintro ⟨N, h, h'⟩
      cases h
      exact h'
  | cons op ops ih =>
    rw [List.cons_append, runs_cons_iff, ih]
    constructor
    · rintro ⟨hop, N, h, h'⟩
      exact ⟨N, .cons hop h, h'⟩
    · rintro ⟨N, h, h'⟩
      cases h with
      | cons hop h => exact ⟨hop, N, h, h'⟩

/-- A run leads to one mapping only. -/
theorem Runs.unique {N : List Nat} (h : Runs d M ops M') (h' : Runs d M ops N) : M' = N := by
  induction h with
  | nil M => exact runs_nil_iff.1 h'
  | cons _ _ ih => exact ih (runs_cons_iff.1 h').2

theorem isArrangement_after (h : IsArrangement n M) (op : Operation) :
    IsArrangement n (after M op) := by
  cases op with
  | swap a b => exact h.exchange a b
  | cnot a b => exact h
  | rev a b => exact h
  | longCnot a b w => exact h

theorem Runs.isArrangement (h : Runs d M ops M') (hM : IsArrangement n M) :
    IsArrangement n M' := by
  induction h with
  | nil M => exact hM
  | cons _ _ ih => exact ih (isArrangement_after hM _)

theorem Runs.foldl_after (h : Runs d M ops M') : ops.foldl after M = M' := by
  induction h with
  | nil M => rfl
  | cons _ _ ih => exact ih

/-- The mappings at which the last operations of the steps are run, with the first step run from
`M`. -/
def gateMappings (M : List Nat) : List Step → List (List Nat)
  | [] => []
  | step :: steps =>
    step.ops.dropLast.foldl after M :: gateMappings (step.ops.foldl after M) steps

/-- A step that ends in a gate runs it at the mapping that the operations before it lead to. -/
theorem gateMappings_cons {callPoint : Nat} (h : Runs d M ops M') (hswap : op.isSwap = false)
    (steps : List Step) :
    gateMappings M (⟨callPoint, ops ++ [op]⟩ :: steps) = M' :: gateMappings M' steps := by
  simp [gateMappings, h.foldl_after, after_of_not_isSwap hswap]

end Runs

/-! ## The loop that runs operations -/

section Loop

variable {d : Device} {costs : CostModel} {callPoint : Nat} {now now' : Progress} {op : Operation}
  {ops : List Operation}

/-- The layout after an operation with its operands on `u` and `v`. -/
def moved (l : Layout) (u v : Nat) : Operation → Layout
  | .swap a b => ⟨exchange l.mapping a b, exchange l.assignment u v⟩
  | _ => l

theorem mapping_moved (l : Layout) (u v : Nat) (op : Operation) :
    (moved l u v op).mapping = after l.mapping op := by
  cases op with
  | swap a b => rfl
  | cnot a b => rfl
  | rev a b => rfl
  | longCnot a b w => rfl

/-- Once its operands are found on `u` and `v`, an operation runs exactly if it is allowed there, at
its price. -/
theorem runOp_eq_ok_iff_of_found {u v : Nat} (ha : op.operands.1 < d.size)
    (hb : op.operands.2 < d.size) (hu : now.layout.mapping[op.operands.1]? = some u)
    (hv : now.layout.mapping[op.operands.2]? = some v) :
    runOp d costs callPoint now op = .ok now' ↔
      Allows d u v op ∧ ⟨moved now.layout u v op, now.spent + costs.price op⟩ = now' := by
  have hsize : ¬ (d.size ≤ op.operands.1 ∨ d.size ≤ op.operands.2) := by omega
  unfold runOp
  simp only [Layout.physical?, if_neg hsize, hu, hv]
  cases op with
  | swap a b =>
    have hex : now.layout.exchangeLogical a b = some (moved now.layout u v (.swap a b)) := by
      simp only [Operation.operands] at hu hv
      simp only [Layout.exchangeLogical, Layout.physical?, hu, hv]
      rfl
    show (if d.isAdjacent u v then AllocError.lookup (now.layout.exchangeLogical a b) >>= _
      else _) = _ ↔ _
    rw [ite_eq_ok_iff, hex, d.isAdjacent_iff]
    exact and_congr_right fun _ => pure_eq_ok_iff
  | cnot a b =>
    show (if d.hasEdge u v then Except.ok now else _) = _ ↔ _
    rw [ite_eq_ok_iff, d.hasEdge_iff, Except.ok.injEq]
    rfl
  | rev a b =>
    show (if d.isReverseEdge u v then Except.ok _ else _) = _ ↔ _
    rw [ite_eq_ok_iff, d.isReverseEdge_iff, Except.ok.injEq]
    rfl
  | longCnot a b w =>
    show (if d.isAdjacent u w && d.isAdjacent w v then Except.ok _ else _) = _ ↔ _
    rw [ite_eq_ok_iff, Bool.and_eq_true, d.isAdjacent_iff, d.isAdjacent_iff, Except.ok.injEq]
    rfl

/-- An operation that was run could be run, and was paid for. -/
theorem canRun_of_runOp (h : runOp d costs callPoint now op = .ok now') :
    CanRun d now.layout.mapping op ∧ now'.layout.mapping = after now.layout.mapping op ∧
      now'.spent = now.spent + costs.price op := by
  by_cases hsize : d.size ≤ op.operands.1 ∨ d.size ≤ op.operands.2
  · unfold runOp at h
    simp only [if_pos hsize] at h
    cases h
  · have hfound := h
    unfold runOp at hfound
    simp only [if_neg hsize, bind_eq_ok_iff, lookup_eq_ok_iff] at hfound
    obtain ⟨u, hu, v, hv, -⟩ := hfound
    have ha : op.operands.1 < d.size := by omega
    have hb : op.operands.2 < d.size := by omega
    obtain ⟨hallows, rfl⟩ := (runOp_eq_ok_iff_of_found ha hb hu hv).1 h
    exact ⟨⟨ha, hb, u, v, hu, hv, hallows⟩, mapping_moved now.layout u v op, rfl⟩

/-- An operation that can be run is run. -/
theorem runOp_of_canRun (costs : CostModel) (callPoint : Nat) (h : CanRun d now.layout.mapping op) :
    ∃ now', runOp d costs callPoint now op = .ok now' := by
  obtain ⟨ha, hb, u, v, hu, hv, hallows⟩ := h
  exact ⟨_, (runOp_eq_ok_iff_of_found ha hb hu hv).2 ⟨hallows, rfl⟩⟩

/-- The loop over operations follows the relation and adds up the prices. -/
theorem runs_of_foldlM_runOp (h : ops.foldlM (runOp d costs callPoint) now = .ok now') :
    Runs d now.layout.mapping ops now'.layout.mapping ∧
      now'.spent = now.spent + costs.total ops := by
  induction ops generalizing now with
  | nil =>
    rw [foldlM_nil_eq_ok_iff] at h
    rw [h]
    exact ⟨.nil _, rfl⟩
  | cons op ops ih =>
    obtain ⟨now₁, hop, hops⟩ := foldlM_cons_eq_ok_iff.1 h
    obtain ⟨hcan, hmap, hprice⟩ := canRun_of_runOp hop
    obtain ⟨hruns, hspent⟩ := ih hops
    refine ⟨.cons hcan (hmap ▸ hruns), ?_⟩
    rw [hspent, hprice, Nat.add_assoc]
    rfl

/-- Operations that can be run in order are run by the loop. -/
theorem foldlM_runOp_of_runs (costs : CostModel) (callPoint : Nat) {M' : List Nat}
    (h : Runs d now.layout.mapping ops M') :
    ∃ now', ops.foldlM (runOp d costs callPoint) now = .ok now' ∧ now'.layout.mapping = M' := by
  induction ops generalizing now with
  | nil => exact ⟨now, rfl, runs_nil_iff.1 h⟩
  | cons op ops ih =>
    obtain ⟨hop, hops⟩ := runs_cons_iff.1 h
    obtain ⟨now₁, hrun⟩ := runOp_of_canRun costs callPoint hop
    obtain ⟨-, hmap, -⟩ := canRun_of_runOp hrun
    obtain ⟨now', hrest, hnow'⟩ := ih (hmap.symm ▸ hops)
    exact ⟨now', foldlM_cons_eq_ok_iff.2 ⟨now₁, hrun, hrest⟩, hnow'⟩

end Loop

end QubitAllocation.Replay
