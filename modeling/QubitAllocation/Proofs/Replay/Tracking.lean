import QubitAllocation.Proofs.Layout
import QubitAllocation.Proofs.Replay.Run

/-!
# Changing the first mapping afterwards

Some strategies change the first mapping after operations have been emitted: they move qubits that
nothing has used. Operations leave the qubits that they do not touch where they are
(`Runs.getElem?_of_untouched`), and they run just as well from any mapping that agrees on the qubits
that they touch (`Runs.agree`).

`Tracks` says that the operations emitted so far run from the first mapping to the current layout and
touch used qubits only. So the unused qubits may be moved as one likes, as long as they start where
they are now (`Tracks.rebase`).
-/

set_option autoImplicit false

namespace QubitAllocation

open Arrangement

/-- The qubit is an operand. -/
def Operation.Touches (op : Operation) (q : Nat) : Prop := q = op.operands.1 ∨ q = op.operands.2

namespace Replay

/-! ## Touched and untouched qubits -/

section Touched

variable {d : Device} {M M' N : List Nat} {q : Nat} {op : Operation} {ops : List Operation}
  {kept : List Nat}

theorem mem_of_touches_singleton (hfst : op.operands.1 ∈ kept) (hsnd : op.operands.2 ∈ kept) :
    ∀ op' ∈ [op], ∀ q, op'.Touches q → q ∈ kept := by
  intro op' hop' q hq
  rw [List.mem_singleton.1 hop'] at hq
  rcases hq with rfl | rfl
  · exact hfst
  · exact hsnd

theorem CanRun.lt_length (h : CanRun d M op) :
    op.operands.1 < M.length ∧ op.operands.2 < M.length := by
  obtain ⟨-, -, u, v, hu, hv, -⟩ := h
  exact ⟨(List.getElem?_eq_some_iff.1 hu).1, (List.getElem?_eq_some_iff.1 hv).1⟩

/-- An operation leaves a qubit that it does not touch where it is. -/
theorem CanRun.getElem?_after (h : CanRun d M op) (hq : ¬ op.Touches q) :
    (after M op)[q]? = M[q]? := by
  rw [Operation.Touches, not_or] at hq
  cases op with
  | cnot a b => rfl
  | rev a b => rfl
  | longCnot a b w => rfl
  | swap a b => exact getElem?_exchange_of_ne h.lt_length.1 h.lt_length.2 hq.1 hq.2

theorem Runs.getElem?_of_untouched (h : Runs d M ops M') (hq : ∀ op ∈ ops, ¬ op.Touches q) :
    M'[q]? = M[q]? := by
  induction h with
  | nil M => rfl
  | cons hop _ ih =>
    rw [List.forall_mem_cons] at hq
    rw [ih hq.2, hop.getElem?_after hq.1]

/-- Mappings that agree on the qubits of an operation allow it alike and still agree after it. -/
theorem CanRun.agree (h : CanRun d M op) (hkept : ∀ q, op.Touches q → q ∈ kept)
    (hsame : ∀ q ∈ kept, N[q]? = M[q]?) :
    CanRun d N op ∧ ∀ q ∈ kept, (after N op)[q]? = (after M op)[q]? := by
  have hfst := hkept _ (Or.inl rfl)
  have hsnd := hkept _ (Or.inr rfl)
  have hcan : CanRun d N op := by
    obtain ⟨ha, hb, u, v, hu, hv, hallows⟩ := h
    exact ⟨ha, hb, u, v, (hsame _ hfst).trans hu, (hsame _ hsnd).trans hv, hallows⟩
  refine ⟨hcan, fun q hq => ?_⟩
  cases op with
  | cnot a b => exact hsame q hq
  | rev a b => exact hsame q hq
  | longCnot a b w => exact hsame q hq
  | swap a b =>
    have hswap : Equiv.swap a b q ∈ kept := by
      rw [Equiv.swap_apply_def]
      split_ifs
      · exact hsnd
      · exact hfst
      · exact hq
    calc (exchange N a b)[q]?
      _ = N[Equiv.swap a b q]? := getElem?_exchange hcan.lt_length.1 hcan.lt_length.2 q
      _ = M[Equiv.swap a b q]? := hsame _ hswap
      _ = (exchange M a b)[q]? := (getElem?_exchange h.lt_length.1 h.lt_length.2 q).symm

/-- **Operations run alike from mappings that agree on the qubits they touch.** -/
theorem Runs.agree (h : Runs d M ops M') (hkept : ∀ op ∈ ops, ∀ q, op.Touches q → q ∈ kept)
    (hsame : ∀ q ∈ kept, N[q]? = M[q]?) :
    ∃ N', Runs d N ops N' ∧ ∀ q ∈ kept, N'[q]? = M'[q]? := by
  induction h generalizing N with
  | nil M => exact ⟨N, .nil N, hsame⟩
  | cons hop _ ih =>
    rw [List.forall_mem_cons] at hkept
    obtain ⟨hcan, hafter⟩ := hop.agree hkept.1 hsame
    obtain ⟨N', hruns, hend⟩ := ih hkept.2 hafter
    exact ⟨N', .cons hcan hruns, hend⟩

theorem Runs.perm (h : Runs d M ops M') : M'.Perm M := by
  induction h with
  | nil M => exact List.Perm.refl M
  | @cons M M' op ops _ _ ih =>
    refine ih.trans ?_
    cases op with
    | cnot a b => exact List.Perm.refl M
    | rev a b => exact List.Perm.refl M
    | longCnot a b w => exact List.Perm.refl M
    | swap a b => exact exchange_perm M a b

end Touched

/-! ## Tracking operations -/

/-- The operations run from the first mapping `M` to the layout `l`, and they touch only the used
qubits `U`. -/
structure Tracks (d : Device) (l : Layout) (M U : List Nat) (ops : List Operation) : Prop where
  layout : l.Consistent d.size
  initial : IsArrangement d.size M
  runs : Runs d M ops l.mapping
  used : ∀ op ∈ ops, ∀ q, op.Touches q → q ∈ U

namespace Tracks

variable {d : Device} {l l' : Layout} {initial initial' used used' : List Nat}
  {ops : List Operation} {a b u v q : Nat}

/-- Marking more qubits as used does no harm. -/
theorem mono (h : Tracks d l initial used ops) (hsub : ∀ q ∈ used, q ∈ used') :
    Tracks d l initial used' ops :=
  ⟨h.layout, h.initial, h.runs, fun op hop q hq => hsub q (h.used op hop q hq)⟩

/-- Unused qubits have not moved. -/
theorem unmoved (h : Tracks d l initial used ops) (hq : q ∉ used) :
    initial[q]? = l.mapping[q]? :=
  (h.runs.getElem?_of_untouched fun op hop htouch => hq (h.used op hop q htouch)).symm

/-- **Unused qubits may be moved**, as long as they start where they are now. -/
theorem rebase (h : Tracks d l initial used ops) (hl' : l'.Consistent d.size)
    (hused : ∀ q ∈ used, initial'[q]? = initial[q]? ∧ l'.mapping[q]? = l.mapping[q]?)
    (hunused : ∀ q, q ∉ used → initial'[q]? = l'.mapping[q]?) :
    Tracks d l' initial' used ops := by
  obtain ⟨N, hruns, hsame⟩ := h.runs.agree h.used fun q hq => (hused q hq).1
  obtain rfl : N = l'.mapping := by
    apply List.ext_getElem?
    intro q
    by_cases hq : q ∈ used
    · rw [hsame q hq, (hused q hq).2]
    · rw [hruns.getElem?_of_untouched fun op hop htouch => hq (h.used op hop q htouch),
        hunused q hq]
  exact ⟨hl', hruns.perm.symm.trans hl'.mapping, hruns, h.used⟩

/-- Two unused qubits can be exchanged from the start. -/
theorem exchangeUnused (h : Tracks d l initial used ops) (ha : l.mapping[a]? = some u)
    (hb : l.mapping[b]? = some v) (hau : a ∉ used) (hbu : b ∉ used) :
    ∃ l', l.exchangeLogical a b = some l' ∧ l'.mapping = exchange l.mapping a b ∧
      Tracks d l' (exchange initial a b) used ops := by
  obtain ⟨l', hl', hmap, -, hcons⟩ := h.layout.exchangeLogical ha hb
  have hlt : ∀ {M : List Nat}, IsArrangement d.size M → a < M.length ∧ b < M.length := by
    intro M hM
    rw [hM.length_eq]
    exact ⟨h.layout.mapping.place_lt ha, h.layout.mapping.place_lt hb⟩
  have hinitial := hlt h.initial
  have hmapping := hlt h.layout.mapping
  refine ⟨l', hl', hmap, h.rebase hcons (fun q hq => ?_) fun q hq => ?_⟩
  · have hqa : q ≠ a := ne_of_mem_of_not_mem hq hau
    have hqb : q ≠ b := ne_of_mem_of_not_mem hq hbu
    rw [hmap, getElem?_exchange_of_ne hinitial.1 hinitial.2 hqa hqb,
      getElem?_exchange_of_ne hmapping.1 hmapping.2 hqa hqb]
    exact ⟨rfl, rfl⟩
  · -- the exchange takes unused qubits to unused qubits
    have hswap : Equiv.swap a b q ∉ used := by
      rw [Equiv.swap_apply_def]
      split_ifs
      · exact hbu
      · exact hau
      · exact hq
    rw [hmap, getElem?_exchange hinitial.1 hinitial.2, getElem?_exchange hmapping.1 hmapping.2,
      h.unmoved hswap]

/-- Operations on used qubits that run on from the layout may be emitted. -/
theorem append {more : List Operation} (h : Tracks d l initial used ops)
    (hl' : l'.Consistent d.size) (hruns : Runs d l.mapping more l'.mapping)
    (hused : ∀ op ∈ more, ∀ q, op.Touches q → q ∈ used) :
    Tracks d l' initial used (ops ++ more) :=
  ⟨hl', h.initial, runs_append_iff.2 ⟨_, h.runs, hruns⟩,
    fun op hop => (List.mem_append.1 hop).elim (h.used op) (hused op)⟩

/-- The qubits on two coupled places can be swapped. -/
theorem swap (h : Tracks d l initial used ops) (ha : l.mapping[a]? = some u)
    (hb : l.mapping[b]? = some v) (huv : d.Coupled u v) (hau : a ∈ used) (hbu : b ∈ used) :
    ∃ l', l.exchangeLogical a b = some l' ∧ l'.mapping = exchange l.mapping a b ∧
      l'.assignment = exchange l.assignment u v ∧
      Tracks d l' initial used (ops ++ [.swap a b]) := by
  obtain ⟨l', hl', hmap, hassign, hcons⟩ := h.layout.exchangeLogical ha hb
  refine ⟨l', hl', hmap, hassign, h.append hcons ?_ ?_⟩
  · rw [hmap]
    exact .cons (canRun_of_allows h.layout.mapping ha hb huv) (.nil _)
  · exact mem_of_touches_singleton hau hbu

/-- A gate on used qubits that can be run may be emitted. -/
theorem gate (h : Tracks d l initial used ops) {gate : Operation} {p : Pair}
    (hcan : CanRun d l.mapping gate) (hswap : gate.isSwap = false)
    (hoperands : gate.operands = (p.control, p.target)) (hcontrol : p.control ∈ used)
    (htarget : p.target ∈ used) : Tracks d l initial used (ops ++ [gate]) := by
  refine h.append h.layout (.cons hcan ?_) ?_
  · rw [after_of_not_isSwap hswap]
    exact .nil _
  · apply mem_of_touches_singleton
    · rw [hoperands]
      exact hcontrol
    · rw [hoperands]
      exact htarget

end Tracks

end Replay

end QubitAllocation
