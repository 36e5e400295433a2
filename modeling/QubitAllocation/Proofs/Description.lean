import QubitAllocation.Device.Reader
import QubitAllocation.Proofs.Coupling
import QubitAllocation.Proofs.Outcome
import QubitAllocation.Proofs.Text.Word
import QubitAllocation.Proofs.Text.Sheet

/-!
# Device descriptions

A description of registers and edges is a sheet of two fields to a row: first the header with the
numbers of registers and of qubits, then a row for each register and then one for each edge, whose
ends are written as indices or as labels (`Describes`). Reading a description gives the device
described (`read_of_describes`): the registers in order, and the edges without later repetitions.

Whatever text is accepted, the header's numbers are those of the registers and of the qubits of the
device, and the registers have as many qubits as the device (`header_of_read`).
-/

set_option autoImplicit false

namespace QubitAllocation

open Text Outcome

namespace Device

/-! ## Descriptions -/

/-- A register name: one field, without the bracket of a label and not like a comment. -/
structure PlainName (name : List Char) : Prop extends IsField isBlank name where
  no_bracket : '[' ∉ name
  no_comment : name.head? ≠ some '#'

instance (name : List Char) : Decidable (PlainName name) :=
  decidable_of_iff (IsField isBlank name ∧ '[' ∉ name ∧ name.head? ≠ some '#')
    ⟨fun ⟨hfield, hbracket, hcomment⟩ => ⟨hfield, hbracket, hcomment⟩,
      fun ⟨hfield, hbracket, hcomment⟩ => ⟨hfield, hbracket, hcomment⟩⟩

/-- The ways to write a qubit as the end of an edge: its index in the device, or the name of its
register with its index there. -/
inductive EndText (registers : List Register) : Nat → List Char → Prop
  | index {qubit : Nat} {digits : List Char} : WordText qubit digits →
      EndText registers qubit digits
  | label {before after : List Register} {r : Register} {i : Nat} {digits : List Char} :
      registers = before ++ r :: after → i < r.size → WordText i digits →
      EndText registers (total Register.size before + i)
        (r.name.toList ++ '[' :: (digits ++ [']']))

/-- The row of a register. -/
def RegisterRow (r : Register) (row : List (List Char)) : Prop :=
  ∃ digits, WordText r.size digits ∧ row = [r.name.toList, digits]

/-- The row of an edge. -/
def EdgeRow (registers : List Register) (e : Nat × Nat) (row : List (List Char)) : Prop :=
  ∃ control target, EndText registers e.1 control ∧ EndText registers e.2 target ∧
    row = [control, target]

/-- A text that describes the registers and edges. All its numbers, that of the registers included,
are of 32 bits. -/
def Describes (registers : List Register) (edges : List (Nat × Nat)) (text : String) : Prop :=
  ∃ count size registerRows edgeRows,
    WordText registers.length count ∧ WordText (total Register.size registers) size ∧
    List.Forall₂ RegisterRow registers registerRows ∧
    List.Forall₂ (EdgeRow registers) edges edgeRows ∧
    Sheet isBlank ([count, size] :: (registerRows ++ edgeRows)) text

variable {registers : List Register} {edges : List (Nat × Nat)} {text : String}

/-! ## The rows of a description -/

theorem separatesBlanks_isBlank : SeparatesBlanks isBlank := fun _ h => h

section Rows

variable (hnames : ∀ r ∈ registers, PlainName r.name.toList)
include hnames

theorem EndText.isField {qubit : Nat} {label : List Char} (h : EndText registers qubit label) :
    IsField isBlank label ∧ label.head? ≠ some '#' := by
  cases h with
  | index hq => exact ⟨hq.isField fun _ => isBlank_of_isDigit, hq.no_comment⟩
  | @label before after r i digits hsplit _ hi =>
    have hname := hnames r (by simp [hsplit])
    refine ⟨⟨by simp, ?_⟩, ?_⟩
    · simp only [List.mem_append, List.mem_cons, List.not_mem_nil, or_false]
      rintro c (hc | rfl | hc | rfl)
      · exact hname.not_sep c hc
      · decide
      · exact isBlank_of_isDigit (hi.isDigit c hc)
      · decide
    · rw [List.head?_append_of_ne_nil _ hname.ne_nil]
      exact hname.no_comment

theorem RegisterRow.readsAsRow {r : Register} {row : List (List Char)} (h : RegisterRow r row)
    (hr : r ∈ registers) : ReadsAsRow isBlank row := by
  obtain ⟨digits, hdigits, rfl⟩ := h
  have hname := hnames r hr
  refine readsAsRow_cons hname.toIsField hname.no_comment ?_
  simp only [List.mem_singleton, forall_eq]
  exact hdigits.isField fun _ => isBlank_of_isDigit

theorem EdgeRow.readsAsRow {e : Nat × Nat} {row : List (List Char)}
    (h : EdgeRow registers e row) : ReadsAsRow isBlank row := by
  obtain ⟨control, target, hcontrol, htarget, rfl⟩ := h
  obtain ⟨hfield, hcomment⟩ := hcontrol.isField hnames
  refine readsAsRow_cons hfield hcomment ?_
  simp only [List.mem_singleton, forall_eq]
  exact (htarget.isField hnames).1

/-- A description has a header line, then a line for each register and then one for each edge. -/
theorem Describes.contentLines_eq (h : Describes registers edges text) :
    ∃ header registerLines edgeLines,
      contentLines text.toList = header :: (registerLines ++ edgeLines) ∧
      (∃ count size, WordText registers.length count ∧
        WordText (total Register.size registers) size ∧ fields header.text = [count, size]) ∧
      List.Forall₂ (fun r line => RegisterRow r (fields line.text)) registers registerLines ∧
      List.Forall₂ (fun e line => EdgeRow registers e (fields line.text)) edges edgeLines := by
  obtain ⟨count, size, registerRows, edgeRows, hcount, hsize, hregisters, hedges, hsheet⟩ := h
  have hrows : ∀ row ∈ [count, size] :: (registerRows ++ edgeRows), ReadsAsRow isBlank row := by
    simp only [List.mem_cons, List.mem_append, forall_eq_or_imp]
    refine ⟨readsAsRow_cons (hcount.isField fun _ => isBlank_of_isDigit) hcount.no_comment ?_, ?_⟩
    · simp only [List.mem_singleton, forall_eq]
      exact hsize.isField fun _ => isBlank_of_isDigit
    · rintro row (hrow | hrow)
      · obtain ⟨r, hr, hrow⟩ := exists_of_forall₂ hregisters hrow
        exact hrow.readsAsRow hnames hr
      · obtain ⟨e, -, hrow⟩ := exists_of_forall₂ hedges hrow
        exact hrow.readsAsRow hnames
  have hfields := hsheet.fields_contentLines separatesBlanks_isBlank hrows
  obtain ⟨header, rest, hlines, hheader, hrest⟩ := List.map_eq_cons_iff.1 hfields
  obtain ⟨registerLines, edgeLines, rfl, rfl, rfl⟩ := List.map_eq_append_iff.1 hrest
  exact ⟨header, registerLines, edgeLines, hlines, ⟨count, size, hcount, hsize, hheader⟩,
    List.forall₂_map_right_iff.1 hregisters, List.forall₂_map_right_iff.1 hedges⟩

end Rows

/-! ## Reading the rows -/

theorem readHeader_eq_ok_iff {line : Line} {count size : Nat} :
    readHeader line = .ok (count, size) ↔
      ∃ a b, fields line.text = [a, b] ∧ readWord? a = some count ∧ readWord? b = some size := by
  have hheader : readHeader line = .ok (count, size) ↔
      (fields line.text).mapM readWord? = some [count, size] := by
    rw [readHeader]
    split
    · next a b heq => simp [heq]
    · next hne =>
      constructor
      · intro h
        cases h
      · intro h
        exact absurd h (hne count size)
  rw [hheader, mapM_eq_some_iff]
  constructor
  · intro h
    obtain ⟨a, _, ha, hrest, hfields⟩ := List.forall₂_cons_right_iff.1 h
    obtain ⟨b, _, hb, hnil, rfl⟩ := List.forall₂_cons_right_iff.1 hrest
    rw [List.forall₂_nil_right_iff] at hnil
    subst hnil
    exact ⟨a, b, hfields, ha, hb⟩
  · rintro ⟨a, b, hfields, ha, hb⟩
    rw [hfields]
    exact .cons ha (.cons hb .nil)

theorem RegisterRow.readRegister_eq {r : Register} {line : Line}
    (h : RegisterRow r (fields line.text)) : readRegister line = .ok r := by
  obtain ⟨digits, hdigits, hfields⟩ := h
  simp [readRegister, hfields, hdigits.readWord?_eq]

theorem readRegisters_of_forall₂ {lines rest : List Line} {header count : Nat}
    (h : List.Forall₂ (fun r line => RegisterRow r (fields line.text)) registers lines) :
    readRegisters header count registers.length (lines ++ rest) = .ok (registers, rest) := by
  induction h with
  | nil => rfl
  | cons hrow _ ih =>
    rw [List.length_cons, List.cons_append, readRegisters, bind_of_eq_ok hrow.readRegister_eq,
      bind_of_eq_ok ih]
    rfl

/-- The register lines are the first ones, and each gives its register. -/
theorem exists_lines_of_readRegisters {lines rest : List Line} {header count left : Nat}
    (h : readRegisters header count left lines = .ok (registers, rest)) :
    ∃ front, lines = front ++ rest ∧ front.length = left ∧
      List.Forall₂ (fun line r => readRegister line = .ok r) front registers := by
  induction left generalizing lines registers with
  | zero =>
    cases h
    exact ⟨[], rfl, rfl, .nil⟩
  | succ left ih =>
    cases lines with
    | nil => cases h
    | cons line lines =>
      obtain ⟨r, hr, h⟩ := bind_eq_ok_iff.1 h
      obtain ⟨⟨more, rest'⟩, hmore, h⟩ := bind_eq_ok_iff.1 h
      cases h
      obtain ⟨front, rfl, rfl, hfront⟩ := ih hmore
      exact ⟨line :: front, rfl, rfl, .cons hr hfront⟩

/-! ## Reading ends of edges -/

/-- The label `name[index]` is that of the qubit: `name` is the name of a register and of none in
front of it, and the qubit is the one at `index` there. -/
def Labels (registers : List Register) (name : String) (index qubit : Nat) : Prop :=
  ∃ before r after, registers = before ++ r :: after ∧ r.name = name ∧
    name ∉ before.map Register.name ∧ index < r.size ∧
    qubit = total Register.size before + index

section Labels

variable {name : String} {index qubit : Nat}

theorem not_labels_nil : ¬ Labels [] name index qubit := by
  rintro ⟨before, r, after, hsplit, -⟩
  simp at hsplit

/-- The first register decides if it has the name, and else it is passed. -/
theorem labels_cons_iff {r : Register} :
    Labels (r :: registers) name index qubit ↔
      (r.name = name ∧ index < r.size ∧ qubit = index) ∨
      (r.name ≠ name ∧ ∃ q, Labels registers name index q ∧ qubit = r.size + q) := by
  constructor
  · rintro ⟨before, r', after, hsplit, hname, hfresh, hindex, rfl⟩
    cases before with
    | nil =>
      cases hsplit
      exact Or.inl ⟨hname, hindex, by rw [total, Nat.zero_add]⟩
    | cons x before =>
      cases hsplit
      rw [List.map_cons, List.mem_cons, not_or] at hfresh
      refine Or.inr ⟨Ne.symm hfresh.1, _, ⟨before, r', after, rfl, hname, hfresh.2, hindex, rfl⟩, ?_⟩
      rw [total, Nat.add_assoc]
  · rintro (⟨hname, hindex, rfl⟩ | ⟨hne, _, ⟨before, r', after, rfl, hname, hfresh, hindex, rfl⟩, rfl⟩)
    · exact ⟨[], r, registers, rfl, hname, by simp, hindex, by rw [total, Nat.zero_add]⟩
    · refine ⟨r :: before, r', after, rfl, hname, ?_, hindex, by rw [total, Nat.add_assoc]⟩
      rw [List.map_cons, List.mem_cons, not_or]
      exact ⟨Ne.symm hne, hfresh⟩

/-- **A label is found exactly if it is that of a qubit**; `passed` qubits lie in front of the
registers. -/
theorem findLabel_eq_ok_iff {line passed : Nat} :
    findLabel line name index passed registers = .ok qubit ↔
      ∃ q, Labels registers name index q ∧ qubit = passed + q := by
  induction registers generalizing passed with
  | nil => simp [findLabel, lineError, not_labels_nil]
  | cons r registers ih =>
    simp only [labels_cons_iff]
    rw [findLabel]
    by_cases hname : r.name = name
    · by_cases hindex : r.size ≤ index
      · simp [hname, hindex, lineError, Nat.not_lt.2 hindex]
      · simp [hname, hindex, Nat.not_le.1 hindex, eq_comm]
    · simp only [hname, if_false, ih, ne_eq, not_false_eq_true, true_and, false_and, false_or]
      constructor
      · rintro ⟨q, hq, rfl⟩
        exact ⟨r.size + q, ⟨q, hq, rfl⟩, Nat.add_assoc _ _ _⟩
      · rintro ⟨_, ⟨q, hq, rfl⟩, rfl⟩
        exact ⟨q, hq, (Nat.add_assoc _ _ _).symm⟩

end Labels

theorem splitLabel?_eq {name digits : List Char} {i : Nat} (hname : '[' ∉ name)
    (hi : readWord? digits = some i) :
    splitLabel? (name ++ '[' :: (digits ++ [']'])) = some (String.ofList name, i) := by
  have hpos : ∀ c ∈ name, (c != '[') = true := by
    intro c hc
    exact bne_iff_ne.2 (ne_of_mem_of_not_mem hc hname)
  rw [splitLabel?, List.span_eq_takeWhile_dropWhile, List.takeWhile_append_of_pos hpos,
    List.dropWhile_append_of_pos hpos]
  simp [hi]

/-- A label is no number. -/
theorem readWord?_label (name rest : List Char) : readWord? (name ++ '[' :: rest) = none := by
  rw [Option.eq_none_iff_forall_ne_some]
  intro n hn
  obtain ⟨digits, hdigits, heq⟩ := readWord?_eq_some_iff.1 hn
  have hmem : '[' ∈ name ++ '[' :: rest := by simp
  have hnot : '[' ∉ digits := hdigits.not_mem (by decide)
  rcases heq with heq | heq
  · exact hnot (heq ▸ hmem)
  · rw [heq, List.mem_cons] at hmem
    rcases hmem with hplus | hmem
    · exact absurd hplus (by decide)
    · exact hnot hmem

/-- An end of an edge that is written as a label is read as the qubit of that label. -/
theorem readEnd_label_eq_ok_iff {name digits : List Char} {index qubit line : Nat}
    (hname : '[' ∉ name) (hindex : readWord? digits = some index) :
    readEnd registers line (name ++ '[' :: (digits ++ [']'])) = .ok qubit ↔
      Labels registers (String.ofList name) index qubit := by
  rw [readEnd, readWord?_label, splitLabel?_eq hname hindex]
  simp [findLabel_eq_ok_iff]

section Ends

variable (hnames : ∀ r ∈ registers, PlainName r.name.toList)
  (hdistinct : (registers.map Register.name).Nodup)
include hnames hdistinct

/-- Either way to write a qubit is read as that qubit. -/
theorem EndText.readEnd_eq {qubit line : Nat} {label : List Char}
    (h : EndText registers qubit label) : readEnd registers line label = .ok qubit := by
  cases h with
  | index hq => rw [readEnd, hq.readWord?_eq]
  | @label before after r i digits hsplit hi hdigits =>
    have hname := hnames r (by simp [hsplit])
    -- the first register of the name decides, so none before `r` may have it
    have hfresh : r.name ∉ before.map Register.name := by
      rw [hsplit, List.map_append, List.map_cons, List.nodup_append] at hdistinct
      intro hmem
      exact hdistinct.2.2 _ hmem _ List.mem_cons_self rfl
    rw [readEnd_label_eq_ok_iff hname.no_bracket hdigits.readWord?_eq, String.ofList_toList]
    exact ⟨before, r, after, hsplit, rfl, hfresh, hi, rfl⟩

theorem EdgeRow.readEdge_eq {e : Nat × Nat} {line : Line}
    (h : EdgeRow registers e (fields line.text)) : readEdge registers line = .ok e := by
  obtain ⟨control, target, hcontrol, htarget, hfields⟩ := h
  rw [readEdge, hfields]
  show (readEnd registers line.number control >>= _) = _
  rw [bind_of_eq_ok (hcontrol.readEnd_eq hnames hdistinct),
    bind_of_eq_ok (htarget.readEnd_eq hnames hdistinct)]
  rfl

end Ends

/-! ## Reading a description -/

/-- **Reading a description** gives the device described. -/
theorem read_of_describes (hnames : ∀ r ∈ registers, PlainName r.name.toList)
    (hdistinct : (registers.map Register.name).Nodup)
    (hvalid : ∀ e ∈ edges, ValidEdge (total Register.size registers) e)
    (h : Describes registers edges text) :
    read text = .ok (assemble (total Register.size registers) edges registers hvalid) := by
  obtain ⟨header, registerLines, edgeLines, hlines, ⟨count, size, hcount, hsize, hfields⟩,
    hregisters, hedges⟩ := h.contentLines_eq hnames
  have hheader : readHeader header = .ok (registers.length, total Register.size registers) :=
    readHeader_eq_ok_iff.2 ⟨count, size, hfields, hcount.readWord?_eq, hsize.readWord?_eq⟩
  have hread : edgeLines.mapM (readEdge registers) = .ok edges := by
    refine mapM_eq_ok_iff.2 (List.Forall₂.flip (hedges.imp fun e line hrow => ?_))
    exact hrow.readEdge_eq hnames hdistinct
  rw [read, hlines, readLines, bind_of_eq_ok hheader]
  dsimp only
  -- the header gives the sum of the registers, which therefore fits 32 bits
  rw [bind_of_eq_ok (readRegisters_of_forall₂ hregisters), declaredQubits?, if_pos hsize.le]
  dsimp only
  rw [if_pos rfl, bind_of_eq_ok hread]
  exact build_eq_ok_iff.2 ⟨hvalid, rfl⟩

/-- **What is read of an accepted text**: a header line, a line for each register and a line for
each edge. The device is built from them. -/
theorem lines_of_read {d : Device} (h : read text = .ok d) :
    ∃ header registerLines edgeLines size registers edges,
      contentLines text.toList = header :: (registerLines ++ edgeLines) ∧
      readHeader header = .ok (registers.length, size) ∧
      List.Forall₂ (fun line r => readRegister line = .ok r) registerLines registers ∧
      List.Forall₂ (fun line e => readEdge registers line = .ok e) edgeLines edges ∧
      total Register.size registers = size ∧ build size edges registers = .ok d := by
  rw [read] at h
  cases hlines : contentLines text.toList with
  | nil =>
    rw [hlines] at h
    cases h
  | cons header rest =>
    rw [hlines, readLines] at h
    obtain ⟨⟨count, size⟩, hheader, hbody⟩ := bind_eq_ok_iff.1 h
    obtain ⟨⟨registers, edgeLines⟩, hregisters, hsized⟩ := bind_eq_ok_iff.1 hbody
    dsimp only at hsized hregisters
    obtain ⟨registerLines, rfl, rfl, hforall⟩ := exists_lines_of_readRegisters hregisters
    rw [declaredQubits?] at hsized
    split at hsized
    · cases hsized
    · next declared hdeclared =>
      obtain ⟨hsize, hedges⟩ := ite_eq_ok_iff.1 hsized
      obtain ⟨edges, hread, hbuild⟩ := bind_eq_ok_iff.1 hedges
      have htotal : total Register.size registers = size := by
        split_ifs at hdeclared
        cases hdeclared
        exact hsize
      rw [hforall.length_eq] at hheader
      exact ⟨header, registerLines, edgeLines, size, registers, edges, rfl, hheader, hforall,
        mapM_eq_ok_iff.1 hread, htotal, hbuild⟩

/-- **The header of an accepted text** has the numbers of the device's registers and qubits. -/
theorem header_of_read {d : Device} (h : read text = .ok d) :
    (∃ header rest count size, contentLines text.toList = header :: rest ∧
      fields header.text = [count, size] ∧ readWord? count = some d.registers.length ∧
      readWord? size = some d.size) ∧
    d.size = total Register.size d.registers := by
  obtain ⟨header, registerLines, edgeLines, size, registers, edges, hlines, hheader, -, -, htotal,
    hbuild⟩ := lines_of_read h
  obtain ⟨a, b, hfields, ha, hb⟩ := readHeader_eq_ok_iff.1 hheader
  obtain ⟨valid, rfl⟩ := build_eq_ok_iff.1 hbuild
  exact ⟨⟨header, _, a, b, hlines, hfields, ha, hb⟩, htotal.symm⟩

/-- **Descriptions and devices.** Whatever way of writing them is chosen, the description of
registers with distinct names and of edges between them is read as the device with these registers
and edges, later repetitions of an edge apart. And of every text that is accepted, the first row has
the number of qubits of the device in second place, which is also that of its registers, and its
edges join two distinct qubits of the device. -/
theorem read_description_roundtrip (text : String) :
    (∀ registers edges, (∀ r ∈ registers, PlainName r.name.toList) →
      (registers.map Register.name).Nodup →
      (∀ e ∈ edges, e.1 < total Register.size registers ∧ e.2 < total Register.size registers ∧
        e.1 ≠ e.2) →
      Describes registers edges text →
      ∃ d, read text = .ok d ∧ d.size = total Register.size registers ∧
        d.registers = registers ∧ d.edges = edges.eraseDups) ∧
    ∀ d, read text = .ok d →
      (∃ header rest count size digits, contentLines text.toList = header :: rest ∧
        fields header.text = [count, size] ∧ WordText d.size digits ∧
        (size = digits ∨ size = '+' :: digits)) ∧
      d.size = total Register.size d.registers ∧
      ∀ e ∈ d.edges, e.1 < d.size ∧ e.2 < d.size ∧ e.1 ≠ e.2 := by
  refine ⟨fun registers edges hnames hdistinct hvalid h => ?_, fun d h => ?_⟩
  · refine ⟨_, read_of_describes hnames hdistinct hvalid h, rfl, rfl, ?_⟩
    exact Links.kept_ofEdges _ edges
  · obtain ⟨⟨header, rest, count, size, hlines, hfields, -, hsize⟩, htotal⟩ := header_of_read h
    obtain ⟨digits, hdigits, hform⟩ := readWord?_eq_some_iff.1 hsize
    exact ⟨⟨header, rest, count, size, digits, hlines, hfields, hdigits, hform⟩, htotal,
      d.edges_valid⟩

/-- Two registers, a comment, blank lines, tabs, and an edge that is written twice: first with an
index and a label and then with two indices, one of them with a leading zero. -/
theorem read_description_roundtrip_chips :
    let text := "# two chips\n2  4\na 2\n\tb 2 \n\n3 b[0]\n a[1]\tb[0]\n03 2\n"
    let registers : List Register := [⟨"a", 2⟩, ⟨"b", 2⟩]
    let edges := [(3, 2), (1, 2), (3, 2)]
    Describes registers edges text ∧
      ∃ d, read text = .ok d ∧ d.size = 4 ∧ d.registers = registers ∧
        d.edges = [(3, 2), (1, 2)] := by
  intro text registers edges
  have hone : EndText registers 1 ['a', '[', '1', ']'] :=
    @EndText.label _ [] [⟨"b", 2⟩] ⟨"a", 2⟩ 1 ['1'] rfl (by decide) (by decide)
  have htwo : EndText registers 2 ['b', '[', '0', ']'] :=
    @EndText.label _ [⟨"a", 2⟩] [] ⟨"b", 2⟩ 0 ['0'] rfl (by decide) (by decide)
  have hdescribes : Describes registers edges text := by
    refine ⟨['2'], ['4'], [[['a'], ['2']], [['b'], ['2']]],
      [[['3'], ['b', '[', '0', ']']], [['a', '[', '1', ']'], ['b', '[', '0', ']']],
        [['0', '3'], ['2']]], by decide, by decide, ?_, ?_, ?_⟩
    · exact .cons ⟨['2'], by decide, rfl⟩ (.cons ⟨['2'], by decide, rfl⟩ .nil)
    · refine .cons ⟨_, _, .index (by decide), htwo, rfl⟩ (.cons ⟨_, _, hone, htwo, rfl⟩ ?_)
      exact .cons ⟨_, _, .index (by decide), .index (by decide), rfl⟩ .nil
    · refine ⟨_, .idle (Or.inr ⟨[], " two chips".toList, by decide, by decide, rfl⟩)
        (.row (showsRow_pair [] [' ', ' '] [] (by decide) (by decide) (by decide))
        (.row (showsRow_pair [] [' '] [] (by decide) (by decide) (by decide))
        (.row (showsRow_pair ['\t'] [' '] [' '] (by decide) (by decide) (by decide))
        (.idle (Or.inl (by decide : Gap isBlank []))
        (.row (showsRow_pair [] [' '] [] (by decide) (by decide) (by decide))
        (.row (showsRow_pair [' '] ['\t'] [] (by decide) (by decide) (by decide))
        (.row (showsRow_pair [] [' '] [] (by decide) (by decide) (by decide))
        (.idle (Or.inl (by decide : Gap isBlank [])) .nil)))))))), ?_⟩
      decide +kernel
  refine ⟨hdescribes, ?_⟩
  obtain ⟨d, hread, hsize, hregisters, hedges⟩ :=
    (read_description_roundtrip text).1 registers edges (by decide) (by decide) (by decide)
      hdescribes
  exact ⟨d, hread, hsize, hregisters, hedges.trans (by decide)⟩

end Device

end QubitAllocation
