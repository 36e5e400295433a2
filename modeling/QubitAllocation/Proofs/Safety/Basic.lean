import QubitAllocation.Circuit.Program
import QubitAllocation.Proofs.Direct
import QubitAllocation.Proofs.Layout
import QubitAllocation.Proofs.Placement
import QubitAllocation.Proofs.Replay.Judgement

/-!
# Proper outcomes

A refusal is internal if it says that the allocator itself has gone wrong: it looked something up
beyond the end of a table, it wanted a gate on a pair that it had not brought together, or it had
nodes left and none ready. An outcome is proper if it is no internal refusal. Sequences and loops
are proper if their parts are (`Proper.bind`, `proper_mapM`, `proper_foldlM`), and a look-up is
proper if there is something to be found (`proper_lookup`).

Checks, first placements and routes are proper on any input. So is a replay of any solution: every
operation either names a qubit outside the device, which is checked, or finds both its operands in
the layout, which stays an arrangement and its inverse (`proper_replay`).
-/

set_option autoImplicit false

namespace QubitAllocation

/-- The refusal says that the allocator itself has gone wrong. -/
def AllocError.isInternal : AllocError → Bool
  | .outOfRange => true
  | .device .outOfRange => true
  | .notAdjacent _ _ => true
  | .noReadyStatement _ => true
  | _ => false

namespace Outcome

variable {α β : Type}

/-- The computation answers with a value or with a refusal that is not internal. -/
def Proper (x : Except AllocError α) : Prop := ∀ e, x = .error e → e.isInternal = false

@[simp]
theorem proper_ok (a : α) : Proper (.ok a) := by
  intro e h
  cases h

@[simp]
theorem proper_pure (a : α) : Proper (pure a) := proper_ok a

@[simp]
theorem proper_error_iff {e : AllocError} :
    Proper (.error e : Except AllocError α) ↔ e.isInternal = false := by
  constructor
  · intro h
    exact h e rfl
  · rintro h _ ⟨⟩
    exact h

theorem proper_of_exists {x : Except AllocError α} (h : ∃ a, x = .ok a) : Proper x := by
  obtain ⟨a, rfl⟩ := h
  exact proper_ok a

theorem proper_lookup {r : Option α} {a : α} (h : r = some a) : Proper (AllocError.lookup r) :=
  proper_of_exists ⟨a, lookup_eq_ok_iff.2 h⟩

/-- A sequence is proper if its first part is, and its second part on what the first answers. -/
theorem Proper.bind {x : Except AllocError α} {f : α → Except AllocError β} (hx : Proper x)
    (hf : ∀ a, x = .ok a → Proper (f a)) : Proper (x >>= f) := by
  intro e h
  rcases bind_eq_error_iff.1 h with herror | ⟨a, ha, herror⟩
  · exact hx e herror
  · exact hf a ha e herror

theorem proper_forM {f : α → Except AllocError PUnit} {xs : List α}
    (h : ∀ x ∈ xs, Proper (f x)) : Proper (xs.forM f) := by
  intro e he
  obtain ⟨x, hx, herror⟩ := error_of_forM he
  exact h x hx e herror

theorem proper_mapM {f : α → Except AllocError β} {xs : List α} (h : ∀ x ∈ xs, Proper (f x)) :
    Proper (xs.mapM f) := by
  intro e he
  obtain ⟨x, hx, herror⟩ := error_of_mapM he
  exact h x hx e herror

/-- A loop is proper if every round is from the states that the rounds before it lead to. -/
theorem proper_foldlM {f : β → α → Except AllocError β} {P : β → Prop} {xs : List α} {b : β}
    (hround : ∀ b x, P b → Proper (f b x) ∧ ∀ b', f b x = .ok b' → P b') (hb : P b) :
    Proper (xs.foldlM f b) := by
  induction xs generalizing b with
  | nil => exact proper_ok b
  | cons x xs ih =>
    obtain ⟨hproper, hnext⟩ := hround b x hb
    rw [List.foldlM_cons]
    exact hproper.bind fun b' hb' => ih (hnext b' hb')

theorem inv_of_foldlM {f : β → α → Except AllocError β} {P : β → Prop} {xs : List α} {b c : β}
    (hround : ∀ b x b', P b → f b x = .ok b' → P b') (hb : P b)
    (h : xs.foldlM f b = .ok c) : P c := by
  induction xs generalizing b with
  | nil =>
    rw [foldlM_nil_eq_ok_iff] at h
    exact h ▸ hb
  | cons x xs ih =>
    obtain ⟨b', hb', h⟩ := foldlM_cons_eq_ok_iff.1 h
    exact ih (hround b x b' hb hb') h

end Outcome

open Outcome Arrangement

/-! ## Checks -/

theorem Dependency.proper_pair (dep : Dependency) : Proper dep.pair := by
  unfold pair
  split <;> simp [AllocError.isInternal]

theorem Dependencies.proper_validate (deps : Dependencies) (n : Nat) :
    Proper (deps.validate n) := by
  refine proper_forM fun dep _ => dep.proper_pair.bind fun p _ => ?_
  split_ifs <;> simp [AllocError.isInternal]

theorem Dependencies.proper_pairs (deps : Dependencies) : Proper deps.pairs :=
  proper_mapM fun dep _ => dep.proper_pair

theorem Dependencies.proper_table (deps : Dependencies) : Proper deps.table := by
  refine proper_foldlM (P := fun _ => True) (fun entries dep _ => ?_) trivial
  exact ⟨dep.proper_pair.bind fun _ _ => proper_pure _, fun _ _ => trivial⟩

theorem proper_checkMapping (M : List Nat) (n : Nat) : Proper (checkMapping M n) := by
  unfold checkMapping
  split_ifs <;> simp [AllocError.isInternal]

theorem Layout.proper_ofMapping (M : List Nat) : Proper (ofMapping M) :=
  (proper_checkMapping M M.length).bind fun _ _ => proper_pure _

theorem proper_narrowCost (total : Nat) : Proper (narrowCost total) := by
  unfold narrowCost
  split_ifs <;> simp [AllocError.isInternal]

theorem Placement.proper_find (placement : Placement) (d : Device) (deps : Dependencies) :
    Proper (placement.find d deps) := by
  cases placement with
  | identity => exact proper_ok _
  | weighted =>
    refine (deps.proper_validate d.size).bind fun _ _ => ?_
    exact deps.proper_pairs.bind fun _ _ => proper_pure _

theorem Statement.proper_validate (n m : Nat) (s : Statement) : Proper (s.validate n m) := by
  unfold validate
  split
  · simp [AllocError.isInternal]
  · split <;> simp [AllocError.isInternal]

theorem Program.proper_validate (p : Program) : Proper p.validate :=
  proper_forM fun s _ => s.proper_validate p.numQubits p.numClbits

/-! ## Routes and gates -/

/-- No route is ever refused but for want of one. -/
theorem Device.proper_route (d : Device) (u v : Nat) :
    Proper (AllocError.ofDevice (d.route u v)) := by
  cases hroute : d.route u v with
  | ok route => exact proper_ok route
  | error e =>
    rw [Device.error_of_route hroute]
    exact proper_error_iff.2 rfl

theorem Gate.proper_between (d : Device) (p : Pair) (u v : Nat) : Proper (between d p u v) := by
  unfold between
  split_ifs
  · exact proper_ok _
  · exact proper_ok _
  · refine (d.proper_route u v).bind fun route _ => ?_
    split <;> simp [AllocError.isInternal]

/-- The operands of a pair in range are found in an arrangement. -/
theorem Gate.proper_under {d : Device} {M : List Nat} {p : Pair} (hM : IsArrangement d.size M)
    (hcontrol : p.control < d.size) (htarget : p.target < d.size) : Proper (under d M p) := by
  obtain ⟨u, hu⟩ := hM.exists_entry hcontrol
  obtain ⟨v, hv⟩ := hM.exists_entry htarget
  refine (proper_lookup hu).bind fun _ _ => (proper_lookup hv).bind fun _ _ => ?_
  exact proper_between d p _ _

/-- **Direct allocation is proper.** -/
theorem Direct.proper_build (d : Device) (costs : CostModel) (deps : Dependencies)
    (initial : List Nat) : Proper (build d costs deps initial) := by
  refine (proper_checkMapping initial d.size).bind fun _ hcheck => ?_
  refine (deps.proper_validate d.size).bind fun _ hvalid => ?_
  have hM := checkMapping_eq_ok_iff.1 hcheck
  refine Proper.bind (proper_mapM fun dep hdep => dep.proper_pair.bind fun p hp => ?_)
    fun steps _ => (proper_narrowCost _).bind fun _ _ => proper_pure _
  obtain ⟨hcontrol, htarget, -⟩ :=
    Dependencies.bounds_of_mem hvalid hdep (Dependency.pair_eq_ok_iff.1 hp)
  exact (Gate.proper_under hM hcontrol htarget).bind fun _ _ => proper_pure _

/-! ## Replays -/

namespace Replay

/-- Every operation leaves a consistent layout. -/
theorem consistent_of_runOp {d : Device} {costs : CostModel} {callPoint : Nat}
    {now now' : Progress} {op : Operation} (hl : now.layout.Consistent d.size)
    (h : runOp d costs callPoint now op = .ok now') : now'.layout.Consistent d.size := by
  obtain ⟨⟨ha, hb, u, v, hu, hv, -⟩, -⟩ := canRun_of_runOp h
  obtain ⟨-, rfl⟩ := (runOp_eq_ok_iff_of_found ha hb hu hv).1 h
  cases op with
  | swap a b =>
    refine ⟨hl.mapping.exchange a b, ?_⟩
    show exchange now.layout.assignment u v = inverse (exchange now.layout.mapping a b)
    rw [hl.assignment]
    exact (inverse_exchange hl.mapping hu hv).symm
  | cnot a b => exact hl
  | rev a b => exact hl
  | longCnot a b bridge => exact hl

/-- An operation is refused only for what it asks of the device. -/
theorem proper_runOp {d : Device} {now : Progress} (hl : now.layout.Consistent d.size)
    (costs : CostModel) (callPoint : Nat) (op : Operation) :
    Proper (runOp d costs callPoint now op) := by
  by_cases hrange : d.size ≤ op.operands.1 ∨ d.size ≤ op.operands.2
  · unfold runOp
    simp [hrange, AllocError.isInternal]
  · have hlt := hrange
    rw [not_or, Nat.not_le, Nat.not_le] at hlt
    obtain ⟨u, hu⟩ := hl.mapping.exists_entry hlt.1
    obtain ⟨v, hv⟩ := hl.mapping.exists_entry hlt.2
    -- both operands are found, and a refusal after that is about couplings
    unfold runOp
    simp only [hrange, if_false]
    refine (proper_lookup hu).bind fun u' hu' => (proper_lookup hv).bind fun v' hv' => ?_
    cases op with
    | swap a b =>
      obtain ⟨l', hl', -⟩ := hl.exchangeLogical hu hv
      dsimp only
      split_ifs
      · exact (proper_lookup hl').bind fun _ _ => proper_pure _
      · exact proper_error_iff.2 rfl
    | cnot a b => dsimp only; split_ifs <;> simp [AllocError.isInternal]
    | rev a b => dsimp only; split_ifs <;> simp [AllocError.isInternal]
    | longCnot a b bridge => dsimp only; split_ifs <;> simp [AllocError.isInternal]

theorem proper_checkFinal (pair : Pair) (step : Step) : Proper (checkFinal pair step) := by
  unfold checkFinal
  split
  · split_ifs <;> simp [AllocError.isInternal]
  · simp [AllocError.isInternal]

theorem proper_runStep {d : Device} {state : State} (hl : state.layout.Consistent d.size)
    (costs : CostModel) (step : Step) :
    Proper (runStep d costs state step) ∧
      ∀ state', runStep d costs state step = .ok state' → state'.layout.Consistent d.size := by
  have hround (now : Progress) (op : Operation) (hl : now.layout.Consistent d.size) :
      Proper (runOp d costs step.callPoint now op) ∧
        ∀ now', runOp d costs step.callPoint now op = .ok now' →
          now'.layout.Consistent d.size :=
    ⟨proper_runOp hl costs step.callPoint op, fun _ => consistent_of_runOp hl⟩
  constructor
  · unfold runStep
    split
    · exact proper_error_iff.2 rfl
    · refine (proper_foldlM hround hl).bind fun _ _ => ?_
      exact (proper_checkFinal _ step).bind fun _ _ => proper_pure _
  · intro state' h
    obtain ⟨-, -, -, now, hnow, rfl⟩ := runStep_eq_ok_iff.1 h
    exact inv_of_foldlM (P := fun now : Progress => now.layout.Consistent d.size)
      (fun now op now' hl h => (hround now op hl).2 now' h) hl hnow

theorem proper_checkCovered (pending : List (Nat × Pair)) : Proper (checkCovered pending) := by
  unfold checkCovered
  split <;> simp [AllocError.isInternal]

theorem proper_checkCount (deps : Dependencies) (steps : List Step) :
    Proper (checkCount deps steps) := by
  unfold checkCount
  split_ifs <;> simp [AllocError.isInternal]

end Replay

open Replay in
/-- **A replay of any solution is proper.** -/
theorem proper_replay (d : Device) (deps : Dependencies) (s : Solution) (costs : CostModel) :
    Proper (replay d deps s costs) := by
  refine (proper_checkMapping s.initial d.size).bind fun _ hcheck => ?_
  refine deps.proper_table.bind fun pending _ => (proper_checkCount deps s.steps).bind fun _ _ => ?_
  refine (Layout.proper_ofMapping s.initial).bind fun layout hlayout => ?_
  have hl : layout.Consistent d.size := by
    obtain ⟨-, rfl⟩ := ofMapping_eq_ok_iff.1 hlayout
    exact ⟨checkMapping_eq_ok_iff.1 hcheck, rfl⟩
  refine (proper_foldlM (P := fun state => state.layout.Consistent d.size)
    (fun state step h => proper_runStep h costs step) hl).bind fun final _ => ?_
  exact (proper_checkCovered _).bind fun _ _ => proper_narrowCost _

end QubitAllocation
