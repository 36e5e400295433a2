import QubitAllocation.Proofs.Greedy.Fix
import QubitAllocation.Proofs.Total
import QubitAllocation.Strategy.Direct
import QubitAllocation.Strategy.PathGuided

/-!
# Reporting totals

A strategy first emits steps and then reports their total price, which has to fit 32 bits
(`narrowCost`). `Bills` says that it reports what it should: the total is refused as too large
exactly if the exact total of what was emitted is, and else it is that total.

Emitting is refused for many causes, but never for its price (`Unbilled`), so a refusal on account
of the price comes from the report. The second half of the file goes through the parts of the
strategies to see this.
-/

set_option autoImplicit false

namespace QubitAllocation

open Outcome

/-! ## Prices -/

theorem CostModel.InWords.price_le {costs : CostModel} (h : costs.InWords) (op : Operation) :
    costs.price op ≤ Text.wordMax := by
  cases op with
  | cnot a b => exact Nat.zero_le _
  | rev a b => exact h.reverse_le
  | swap a b => exact h.swap_le
  | longCnot a b w => exact h.longCnot_le

/-! ## Reports -/

/-- The answer reports the total of the steps that were emitted. -/
structure Bills (costs : CostModel) (emitted : Except AllocError (List Step))
    (answer : Except AllocError Solution) : Prop where
  overflow_iff : ∀ t, answer = .error (.costOverflow t) ↔
    ∃ steps, emitted = .ok steps ∧ costs.total (steps.flatMap Step.ops) = t ∧ Text.wordMax < t
  total_eq : ∀ s, answer = .ok s → emitted = .ok s.steps ∧ s.cost = costs.total s.ops
  complete : ∀ steps, emitted = .ok steps → costs.total (steps.flatMap Step.ops) ≤ Text.wordMax →
    ∃ s, answer = .ok s ∧ s.steps = steps

namespace Outcome

variable {α β : Type}

/-- The computation is not refused on account of a price. -/
def Unbilled (x : Except AllocError α) : Prop := ∀ t, x ≠ .error (.costOverflow t)

end Outcome

section Reports

variable {α : Type} {costs : CostModel} {emitted : Except AllocError α} {steps : α → List Step}
  {total : α → Nat} {finish : α → Nat → Except AllocError Solution}

/-- What is emitted and then narrowed is reported. -/
theorem bills_of_narrow (hemitted : Unbilled emitted)
    (htotal : ∀ a, emitted = .ok a → total a = costs.total ((steps a).flatMap Step.ops))
    (hfinish : ∀ a, emitted = .ok a → total a ≤ Text.wordMax →
      ∃ s, finish a (total a) = .ok s ∧ s.steps = steps a ∧ s.cost = total a) :
    Bills costs (emitted.map steps) (emitted >>= fun a => narrowCost (total a) >>= finish a) := by
  cases emitted with
  | error e =>
    refine ⟨fun t => ⟨?_, ?_⟩, ?_, ?_⟩
    · rintro ⟨⟩
      exact absurd rfl (hemitted t)
    · rintro ⟨steps, ⟨⟩, -⟩
    · rintro s ⟨⟩
    · rintro steps ⟨⟩
  | ok a =>
    have hbind : ((.ok a : Except AllocError α) >>= fun a => narrowCost (total a) >>= finish a) =
        narrowCost (total a) >>= finish a := rfl
    rw [hbind]
    have hexact := htotal a rfl
    by_cases hfits : total a ≤ Text.wordMax
    · obtain ⟨s, hs, hsteps, hcost⟩ := hfinish a rfl hfits
      have hanswer : (narrowCost (total a) >>= finish a) = .ok s := by
        rw [narrowCost, if_pos hfits]
        exact hs
      rw [hanswer]
      refine ⟨fun t => ⟨?_, ?_⟩, ?_, ?_⟩
      · rintro ⟨⟩
      · rintro ⟨steps', ⟨⟩, ht, hlarge⟩
        omega
      · rintro s' ⟨⟩
        exact ⟨congrArg Except.ok hsteps.symm, by rw [hcost, hexact, Solution.ops, hsteps]⟩
      · rintro steps' ⟨⟩ -
        exact ⟨s, rfl, hsteps⟩
    · have hanswer : (narrowCost (total a) >>= finish a) = .error (.costOverflow (total a)) := by
        rw [narrowCost, if_neg hfits]
        rfl
      rw [hanswer]
      refine ⟨fun t => ⟨?_, ?_⟩, ?_, ?_⟩
      · rintro ⟨⟩
        exact ⟨steps a, rfl, hexact.symm, by omega⟩
      · rintro ⟨steps', ⟨⟩, ht, -⟩
        rw [← ht, hexact]
      · rintro s' ⟨⟩
      · rintro steps' ⟨⟩ hle
        omega

end Reports

/-! ## Refusals that are not about prices -/

namespace Outcome

variable {α β : Type}

theorem unbilled_ok (a : α) : Unbilled (.ok a) := by
  rintro t ⟨⟩

theorem unbilled_pure (a : α) : Unbilled (pure a) := unbilled_ok a

theorem Unbilled.bind {x : Except AllocError α} {f : α → Except AllocError β} (hx : Unbilled x)
    (hf : ∀ a, Unbilled (f a)) : Unbilled (x >>= f) := by
  intro t h
  rcases bind_eq_error_iff.1 h with herror | ⟨a, -, herror⟩
  · exact hx t herror
  · exact hf a t herror

theorem unbilled_ite {c : Prop} [Decidable c] {x y : Except AllocError α} (hx : Unbilled x)
    (hy : Unbilled y) : Unbilled (if c then x else y) := by
  split_ifs
  · exact hx
  · exact hy

theorem unbilled_lookup (r : Option α) : Unbilled (AllocError.lookup r) := by
  cases r <;> rintro t ⟨⟩

theorem unbilled_ofDevice (r : Except DeviceError α) : Unbilled (AllocError.ofDevice r) := by
  cases r <;> rintro t ⟨⟩

theorem unbilled_forM {f : α → Except AllocError PUnit} {xs : List α}
    (h : ∀ x, Unbilled (f x)) : Unbilled (xs.forM f) := by
  intro t ht
  obtain ⟨x, -, hx⟩ := error_of_forM ht
  exact h x t hx

theorem unbilled_mapM {f : α → Except AllocError β} {xs : List α} (h : ∀ x, Unbilled (f x)) :
    Unbilled (xs.mapM f) := by
  intro t ht
  obtain ⟨x, -, hx⟩ := error_of_mapM ht
  exact h x t hx

theorem unbilled_foldlM {f : β → α → Except AllocError β} {xs : List α} (b : β)
    (h : ∀ b x, Unbilled (f b x)) : Unbilled (xs.foldlM f b) := by
  induction xs generalizing b with
  | nil => exact unbilled_ok b
  | cons x xs ih =>
    rw [List.foldlM_cons]
    exact (h b x).bind ih

end Outcome

theorem Dependency.unbilled_pair (dep : Dependency) : Unbilled dep.pair := by
  unfold pair
  split <;> rintro t ⟨⟩

theorem Dependencies.unbilled_validate (deps : Dependencies) (n : Nat) :
    Unbilled (deps.validate n) := by
  refine unbilled_forM fun dep => dep.unbilled_pair.bind fun p => ?_
  split_ifs <;> rintro t ⟨⟩

theorem Dependencies.unbilled_pairs (deps : Dependencies) : Unbilled deps.pairs :=
  unbilled_mapM Dependency.unbilled_pair

theorem Dependencies.unbilled_table (deps : Dependencies) : Unbilled deps.table :=
  unbilled_foldlM _ fun _ dep => dep.unbilled_pair.bind fun _ => unbilled_pure _

theorem unbilled_checkMapping (M : List Nat) (n : Nat) : Unbilled (checkMapping M n) := by
  unfold checkMapping
  split_ifs <;> rintro t ⟨⟩

theorem Layout.unbilled_ofMapping (M : List Nat) : Unbilled (ofMapping M) :=
  (unbilled_checkMapping M M.length).bind fun _ => unbilled_pure _

theorem Placement.unbilled_find (placement : Placement) (d : Device) (deps : Dependencies) :
    Unbilled (placement.find d deps) := by
  cases placement with
  | identity => exact unbilled_ok _
  | weighted =>
    exact (deps.unbilled_validate d.size).bind fun _ =>
      deps.unbilled_pairs.bind fun _ => unbilled_pure _

namespace Gate

variable (d : Device) (M : List Nat) (p : Pair)

theorem unbilled_under : Unbilled (under d M p) := by
  refine (unbilled_lookup _).bind fun u => (unbilled_lookup _).bind fun v => ?_
  unfold between
  split_ifs
  · exact unbilled_ok _
  · exact unbilled_ok _
  · refine (unbilled_ofDevice _).bind fun route => ?_
    split <;> rintro t ⟨⟩

theorem unbilled_adjacent : Unbilled (adjacent d M p) := by
  refine (unbilled_lookup _).bind fun u => (unbilled_lookup _).bind fun v => ?_
  split_ifs <;> rintro t ⟨⟩

end Gate

namespace PathGuided

variable (d : Device) (costs : CostModel)

theorem unbilled_chain (hops : List (Nat × Nat)) (l : Layout) : Unbilled (chain d hops l) := by
  induction hops generalizing l with
  | nil => exact unbilled_ok _
  | cons hop hops ih =>
    rw [chain]
    exact (unbilled_lookup _).bind fun _ => (unbilled_lookup _).bind fun _ =>
      (unbilled_lookup _).bind fun _ => (ih _).bind fun _ => unbilled_pure _

theorem unbilled_holders (l : Layout) (route : List Nat) : Unbilled (holders l route) :=
  unbilled_mapM fun _ => unbilled_lookup _

theorem unbilled_approach (route : List Nat) (s : State) : Unbilled (approach d costs route s) := by
  unfold approach
  split_ifs
  · exact unbilled_ok s
  · refine (unbilled_holders _ _).bind fun held => (unbilled_chain d _ _).bind fun moved => ?_
    split_ifs
    · refine Unbilled.bind ?_ fun _ => unbilled_pure _
      exact unbilled_foldlM _ fun _ _ => (unbilled_lookup _).bind fun _ => unbilled_pure _
    · exact unbilled_pure _

theorem unbilled_settle (seenAgain : Bool) (p : Pair) (s : State) :
    Unbilled (settle d costs seenAgain p s) := by
  refine (unbilled_lookup _).bind fun u => (unbilled_lookup _).bind fun v => ?_
  refine unbilled_ite (unbilled_pure _) (unbilled_ite (unbilled_ite ?_ (unbilled_pure _)) ?_)
  · exact (unbilled_lookup _).bind fun _ => unbilled_pure _
  · rintro t ⟨⟩

theorem unbilled_meet (seenAgain : Bool) (p : Pair) (s : State) :
    Unbilled (meet d costs seenAgain p s) := by
  refine (unbilled_lookup _).bind fun u => (unbilled_lookup _).bind fun v =>
    (unbilled_ofDevice _).bind fun route => ?_
  split
  · exact (unbilled_holders _ _).bind fun _ => Unbilled.bind (unbilled_pure _) fun _ =>
      unbilled_pure _
  · exact (unbilled_approach d costs route s).bind fun near =>
      (unbilled_settle d costs _ p near).bind fun _ => unbilled_pure _

theorem unbilled_run (entries : List (Nat × Pair)) (s : State) :
    Unbilled (run d costs entries s) := by
  induction entries generalizing s with
  | nil => exact unbilled_ok _
  | cons entry entries ih =>
    rw [run]
    exact (unbilled_meet d costs _ _ _).bind fun met => (ih met).bind fun _ => unbilled_pure _

end PathGuided

namespace Greedy

variable (d : Device) (costs : CostModel) (t : Task)

theorem unbilled_relocation (s : State) (p : Pair) (mover anchor : Nat) :
    Unbilled (relocation? d costs s p mover anchor) := by
  refine unbilled_ite (unbilled_pure _) ((unbilled_lookup _).bind fun place => ?_)
  refine Unbilled.bind (unbilled_mapM fun _ => ?_) fun _ => unbilled_pure _
  exact (unbilled_lookup _).bind fun _ => unbilled_pure _

theorem unbilled_relocate (s : State) (p : Pair) : Unbilled (relocate? d costs s p) := by
  obtain ⟨mover, anchor, -, heq⟩ := relocate_eq d costs s p
  rw [heq]
  refine unbilled_ite (unbilled_ok _) ((unbilled_relocation d costs s p _ _).bind fun found => ?_)
  split
  · exact unbilled_ok _
  · exact unbilled_relocation d costs s p _ _

theorem unbilled_evaluate (s : State) (p : Pair) : Unbilled (evaluate d costs s p) := by
  refine (unbilled_lookup _).bind fun u => (unbilled_lookup _).bind fun v => ?_
  split_ifs
  · exact unbilled_pure _
  · exact unbilled_pure _
  · refine (unbilled_relocate d costs s p).bind fun candidate => ?_
    split
    · exact unbilled_pure _
    · exact (unbilled_ofDevice _).bind fun _ => unbilled_pure _

theorem unbilled_swapHops (hops : List (Nat × Nat)) (s : State) : Unbilled (swapHops hops s) := by
  induction hops generalizing s with
  | nil => exact unbilled_ok _
  | cons hop hops ih =>
    rw [swapHops]
    exact (unbilled_lookup _).bind fun _ => (unbilled_lookup _).bind fun _ =>
      (unbilled_lookup _).bind fun _ => (ih _).bind fun _ => unbilled_pure _

theorem unbilled_carry (s : State) (fix : Fix) : Unbilled (carry s fix) := by
  cases fix with
  | native => exact unbilled_ok _
  | reversed => exact unbilled_ok _
  | relocate mover partner => exact (unbilled_lookup _).bind fun _ => unbilled_pure _
  | chain route => exact unbilled_swapHops _ s

theorem unbilled_apply (s : State) (p : Pair) (fix : Fix) : Unbilled (apply d s p fix) := by
  rw [apply_eq]
  exact (unbilled_carry s fix).bind fun _ =>
    (Gate.unbilled_adjacent d _ p).bind fun _ => unbilled_pure _

theorem unbilled_commitFree (free : List Nat) (r : Run) : Unbilled (commitFree t free r) := by
  induction free generalizing r with
  | nil => exact unbilled_ok r
  | cons i free ih =>
    rw [commitFree, Handler.commitFree]
    exact (unbilled_lookup _).bind fun _ => (unbilled_lookup _).bind fun _ => ih _

theorem unbilled_commitCheapest (r : Run) : Unbilled (commitCheapest t r) := by
  refine Unbilled.bind (unbilled_mapM fun i => ?_) fun bids => ?_
  · exact (unbilled_lookup _).bind fun p =>
      (unbilled_evaluate t.device t.costs r.state p).bind fun _ => unbilled_pure _
  · exact (unbilled_lookup _).bind fun best => (unbilled_lookup _).bind fun _ =>
      (unbilled_apply t.device r.state best.pair best.candidate.fix).bind fun _ =>
        (unbilled_lookup _).bind fun _ => unbilled_pure _

theorem unbilled_advance (r : Run) : Unbilled (advance t r) := by
  unfold advance Handler.advance
  split
  · exact (unbilled_lookup _).bind fun _ => unbilled_pure _
  · refine (unbilled_lookup _).bind fun frontier => ?_
    split_ifs
    · rintro t ⟨⟩
    · split
      · exact unbilled_commitCheapest t _
      · exact unbilled_commitFree t _ _

theorem unbilled_advanceAll (fuel : Nat) (r : Run) : Unbilled (advanceAll t fuel r) := by
  induction fuel generalizing r with
  | zero => exact unbilled_ok r
  | succ fuel ih =>
    rw [advanceAll, Handler.advanceAll]
    split_ifs
    · exact unbilled_ok r
    · exact (unbilled_advance t r).bind ih

end Greedy

end QubitAllocation
