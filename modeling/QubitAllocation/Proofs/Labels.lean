import QubitAllocation.Proofs.Description
import Mathlib.Data.Set.Function

/-!
# Labels of qubits

A label such as `q[3]` is looked up twice: by the reader of descriptions, which says what is wrong
with a label that names no qubit, and by the device afterwards. Both walk along the registers and
count the qubits that they pass; the first register of the name decides, even if it is too small
and a later one of the same name is not. `Labels` says this without a walk, and both walks find
exactly the qubit that it names (`findLabel_eq_ok_iff`, `resolveIn_eq_some_iff`).

If the names of the registers are distinct, every register decides for its own labels. The labels
then number the qubits of the device, each once (`bijOn_resolve?`): the qubits of a register come
right after those of the registers in front of it.
-/

set_option autoImplicit false

namespace QubitAllocation.Device

open Text Outcome

section Labels

variable {registers : List Register} {name : String} {index qubit : Nat}

/-! ## The walk of a device -/

/-- The device finds a label exactly if it is that of a qubit, as the reader does. -/
theorem resolveIn_eq_some_iff {passed : Nat} :
    resolveIn passed name index registers = some qubit ↔
      ∃ q, Labels registers name index q ∧ qubit = passed + q := by
  induction registers generalizing passed with
  | nil => simp [resolveIn, not_labels_nil]
  | cons r registers ih =>
    simp only [labels_cons_iff]
    rw [resolveIn]
    by_cases hname : r.name = name
    · by_cases hindex : index < r.size
      · simp [hname, hindex, eq_comm]
      · simp [hname, hindex]
    · simp only [hname, if_false, ih, ne_eq, not_false_eq_true, true_and, false_and, false_or]
      constructor
      · rintro ⟨q, hq, rfl⟩
        exact ⟨r.size + q, ⟨q, hq, rfl⟩, Nat.add_assoc _ _ _⟩
      · rintro ⟨_, ⟨q, hq, rfl⟩, rfl⟩
        exact ⟨q, hq, (Nat.add_assoc _ _ _).symm⟩

theorem resolve?_eq_some_iff {d : Device} :
    d.resolve? name index = some qubit ↔ Labels d.registers name index qubit := by
  simp [resolve?, resolveIn_eq_some_iff]

/-! ## Labels number the qubits -/

/-- A labelled qubit is one of the registers' qubits. -/
theorem Labels.lt (h : Labels registers name index qubit) :
    qubit < total Register.size registers := by
  induction registers generalizing qubit with
  | nil => exact absurd h not_labels_nil
  | cons r registers ih =>
    rw [total]
    rcases labels_cons_iff.1 h with ⟨-, hindex, rfl⟩ | ⟨-, q, hq, rfl⟩
    · omega
    · have hlt := ih hq
      omega

/-- Only a name that registers have occurs in labels. -/
theorem Labels.mem (h : Labels registers name index qubit) :
    name ∈ registers.map Register.name := by
  obtain ⟨before, r, after, rfl, rfl, -⟩ := h
  simp

/-- No qubit has two labels: the walks that lead to it stop at the same register. -/
theorem Labels.unique {name' : String} {index' : Nat} (h : Labels registers name index qubit)
    (h' : Labels registers name' index' qubit) : name = name' ∧ index = index' := by
  induction registers generalizing qubit with
  | nil => exact absurd h not_labels_nil
  | cons r registers ih =>
    rcases labels_cons_iff.1 h with ⟨hname, hindex, rfl⟩ | ⟨-, q, hq, rfl⟩ <;>
      rcases labels_cons_iff.1 h' with ⟨hname', hindex', heq⟩ | ⟨-, q', hq', heq⟩
    · exact ⟨hname.symm.trans hname', heq⟩
    · -- the one stops in the first register, and the other passes all of its qubits
      omega
    · omega
    · obtain rfl : q = q' := Nat.add_left_cancel heq
      exact ih hq hq'

/-- Every qubit has a label, if no name hides a register behind another one. -/
theorem exists_labels (hdistinct : (registers.map Register.name).Nodup)
    (hqubit : qubit < total Register.size registers) :
    ∃ r ∈ registers, ∃ index < r.size, Labels registers r.name index qubit := by
  induction registers generalizing qubit with
  | nil => exact absurd hqubit (Nat.not_lt_zero _)
  | cons r registers ih =>
    rw [List.map_cons, List.nodup_cons] at hdistinct
    rw [total] at hqubit
    rcases Nat.lt_or_ge qubit r.size with hlt | hge
    · exact ⟨r, List.mem_cons_self, qubit, hlt, labels_cons_iff.2 (Or.inl ⟨rfl, hlt, rfl⟩)⟩
    · obtain ⟨r', hr', index, hindex, h⟩ := ih hdistinct.2 (by omega : qubit - r.size < _)
      refine ⟨r', List.mem_cons_of_mem _ hr', index, hindex, labels_cons_iff.2 (Or.inr ⟨?_, ?_⟩)⟩
      · intro heq
        exact hdistinct.1 (heq ▸ h.mem)
      · exact ⟨_, h, by omega⟩

/-- Every index of a register is that of a qubit, if no other register has its name. -/
theorem exists_qubit {r : Register} (hdistinct : (registers.map Register.name).Nodup)
    (hr : r ∈ registers) (hindex : index < r.size) : ∃ q, Labels registers r.name index q := by
  obtain ⟨before, after, rfl⟩ := List.append_of_mem hr
  refine ⟨_, before, r, after, rfl, rfl, ?_, hindex, rfl⟩
  rw [List.map_append, List.map_cons, List.nodup_append] at hdistinct
  intro hmem
  exact hdistinct.2.2 _ hmem _ List.mem_cons_self rfl

end Labels

/-- **Labels number the qubits of a device**, if its registers have distinct names and as many qubits
as the device. -/
theorem bijOn_resolve? {d : Device} (hsize : d.size = total Register.size d.registers)
    (hdistinct : (d.registers.map Register.name).Nodup) :
    Set.BijOn (fun label : Register × Nat => d.resolve? label.1.name label.2)
      {label | label.1 ∈ d.registers ∧ label.2 < label.1.size} (some '' Set.Iio d.size) := by
  refine ⟨?_, ?_, ?_⟩
  · rintro ⟨r, index⟩ ⟨hr, hindex⟩
    obtain ⟨q, hq⟩ := exists_qubit hdistinct hr hindex
    exact ⟨q, hsize ▸ hq.lt, (resolve?_eq_some_iff.2 hq).symm⟩
  · rintro ⟨r, index⟩ ⟨hr, hindex⟩ ⟨r', index'⟩ ⟨hr', hindex'⟩ heq
    dsimp only at heq
    obtain ⟨q, hq⟩ := exists_qubit hdistinct hr hindex
    rw [resolve?_eq_some_iff.2 hq, eq_comm, resolve?_eq_some_iff] at heq
    obtain ⟨hname, rfl⟩ := hq.unique heq
    -- a register is known by its name
    obtain rfl : r = r' := List.inj_on_of_nodup_map hdistinct hr hr' hname
    rfl
  · rintro _ ⟨q, hq, rfl⟩
    obtain ⟨r, hr, index, hindex, hlabel⟩ := exists_labels hdistinct (hsize ▸ hq)
    exact ⟨(r, index), ⟨hr, hindex⟩, resolve?_eq_some_iff.2 hlabel⟩

/-! ## Labels of a description -/

theorem readEdge_eq_ok_iff {registers : List Register} {line : Line} {e : Nat × Nat} :
    readEdge registers line = .ok e ↔ ∃ control target, fields line.text = [control, target] ∧
      readEnd registers line.number control = .ok e.1 ∧
      readEnd registers line.number target = .ok e.2 := by
  obtain ⟨u, v⟩ := e
  rw [readEdge]
  split
  · next control target hfields =>
    rw [hfields]
    constructor
    · intro h
      obtain ⟨_, hu, h⟩ := bind_eq_ok_iff.1 h
      obtain ⟨_, hv, h⟩ := bind_eq_ok_iff.1 h
      cases h
      exact ⟨control, target, rfl, hu, hv⟩
    · rintro ⟨_, _, hsame, hu, hv⟩
      cases hsame
      rw [bind_of_eq_ok hu, bind_of_eq_ok hv]
      rfl
  · next hne =>
    constructor
    · intro h
      cases h
    · rintro ⟨control, target, hfields, -⟩
      exact absurd hfields (hne control target)

/-- **The reader and the device agree on labels.** Let a text be accepted and give a device. Then the
ends of its edges were read with the registers of that device. With these, an end `name[i]` is read
as a qubit exactly if the device finds that qubit for the label; it is a qubit of the device, so its
number fits 32 bits. And if the registers have distinct names, then the registers with their indices
are in bijection with the qubits. -/
theorem labels_read_as_resolved {text : String} {d : Device} (h : read text = .ok d) :
    (∃ header registerLines edgeLines edges,
      contentLines text.toList = header :: (registerLines ++ edgeLines) ∧
      registerLines.length = d.registers.length ∧ d.edges = edges.eraseDups ∧
      List.Forall₂ (fun line e => ∃ control target, fields line.text = [control, target] ∧
        readEnd d.registers line.number control = .ok e.1 ∧
        readEnd d.registers line.number target = .ok e.2) edgeLines edges) ∧
    (∀ line name digits i, '[' ∉ name.toList → readWord? digits = some i → ∀ k,
      readEnd d.registers line (name.toList ++ '[' :: (digits ++ [']'])) = .ok k ↔
        d.resolve? name i = some k) ∧
    (∀ name i k, d.resolve? name i = some k → k < d.size ∧ d.size ≤ wordMax) ∧
    ((d.registers.map Register.name).Nodup →
      Set.BijOn (fun label : Register × Nat => d.resolve? label.1.name label.2)
        {label | label.1 ∈ d.registers ∧ label.2 < label.1.size} (some '' Set.Iio d.size)) := by
  obtain ⟨⟨_, _, _, _, -, -, -, hword⟩, hsize⟩ := header_of_read h
  refine ⟨?_, ?_, ?_, bijOn_resolve? hsize⟩
  · obtain ⟨header, registerLines, edgeLines, size, registers, edges, hlines, -, hregisters, hedges,
      -, hbuild⟩ := lines_of_read h
    obtain ⟨-, hdistinct⟩ := edges_of_build hbuild
    obtain ⟨valid, rfl⟩ := build_eq_ok_iff.1 hbuild
    exact ⟨header, registerLines, edgeLines, edges, hlines, hregisters.length_eq, hdistinct,
      hedges.imp fun _ _ => readEdge_eq_ok_iff.1⟩
  · intro line name digits i hname hi k
    rw [readEnd_label_eq_ok_iff hname hi, String.ofList_toList, resolve?_eq_some_iff]
  · intro name i k hk
    obtain ⟨digits, hdigits, -⟩ := readWord?_eq_some_iff.1 hword
    exact ⟨hsize ▸ (resolve?_eq_some_iff.1 hk).lt, hdigits.le⟩

/-- Three registers, one of them without qubits, and then two registers of one name, where the first
hides the second. -/
theorem labels_read_as_resolved_chips :
    (∃ d, read "3 5\na 2\nz 0\nb 3\nb[+2] a[1]\n" = .ok d ∧ d.edges = [(4, 1)] ∧
      ('[' ∉ "b".toList ∧ readWord? "+2".toList = some 2) ∧ d.resolve? "b" 2 = some 4 ∧
      readEnd d.registers 5 ("b".toList ++ '[' :: ("+2".toList ++ [']'])) = .ok 4 ∧
      4 < d.size ∧ d.size ≤ wordMax ∧ d.resolve? "z" 0 = none ∧
      (d.registers.map Register.name).Nodup ∧
      ∃ label : Register × Nat, label.1 ∈ d.registers ∧ label.2 < label.1.size ∧
        d.resolve? label.1.name label.2 = some 3) ∧
    ∃ d, read "2 4\na 1\na 3\n" = .ok d ∧ d.resolve? "a" 2 = none ∧
      ('[' ∉ "a".toList ∧ readWord? "2".toList = some 2) ∧
      ∀ k, readEnd d.registers 4 ("a".toList ++ '[' :: ("2".toList ++ [']'])) ≠ .ok k := by
  have hbuilds : ∀ size edges registers, (∀ e ∈ edges, ValidEdge size e) →
      ∃ d, build size edges registers = .ok d ∧ d.size = size ∧ d.registers = registers ∧
        d.edges = edges.eraseDups := fun size edges registers valid =>
    ⟨_, build_eq_ok_iff.2 ⟨valid, rfl⟩, rfl, rfl, Links.kept_ofEdges size edges⟩
  refine ⟨?_, ?_⟩
  · obtain ⟨d, hbuild, hsize, hregisters, hedges⟩ :=
      hbuilds 5 [(4, 1)] [⟨"a", 2⟩, ⟨"z", 0⟩, ⟨"b", 3⟩] (by decide)
    have hread : read "3 5\na 2\nz 0\nb 3\nb[+2] a[1]\n" = .ok d := by
      rw [← hbuild]
      rfl
    obtain ⟨-, halike, hlt, hbij⟩ := labels_read_as_resolved hread
    have hresolve : d.resolve? "b" 2 = some 4 := by
      rw [resolve?, hregisters]
      decide
    have hdistinct : (d.registers.map Register.name).Nodup := by
      rw [hregisters]
      decide
    obtain ⟨label, ⟨hmem, hindex⟩, hthree⟩ :=
      (hbij hdistinct).surjOn ⟨3, (by rw [hsize]; decide : 3 < d.size), rfl⟩
    obtain ⟨hfour, hword⟩ := hlt _ _ _ hresolve
    refine ⟨d, hread, hedges.trans (by decide), ⟨by decide, by decide +kernel⟩, hresolve,
      (halike 5 "b" "+2".toList 2 (by decide) (by decide +kernel) 4).2 hresolve, hfour, hword, ?_,
      hdistinct, label, hmem, hindex, hthree⟩
    rw [resolve?, hregisters]
    decide
  · obtain ⟨d, hbuild, -, hregisters, -⟩ := hbuilds 4 [] [⟨"a", 1⟩, ⟨"a", 3⟩] (by decide)
    have hread : read "2 4\na 1\na 3\n" = .ok d := by
      rw [← hbuild]
      rfl
    obtain ⟨-, halike, -⟩ := labels_read_as_resolved hread
    have hresolve : d.resolve? "a" 2 = none := by
      rw [resolve?, hregisters]
      decide
    refine ⟨d, hread, hresolve, ⟨by decide, by decide +kernel⟩, fun k hk => ?_⟩
    rw [halike 4 "a" "2".toList 2 (by decide) (by decide +kernel) k, hresolve] at hk
    cases hk

end QubitAllocation.Device
