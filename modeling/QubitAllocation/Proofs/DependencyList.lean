import QubitAllocation.Dependency.Reader
import QubitAllocation.Proofs.Outcome
import QubitAllocation.Proofs.Text.Word

/-!
# Dependency lists

A dependency list is a sheet with one pair to a row: two operands, perhaps after the word `cx`. An
operand is written as a number, as a name with a number, or as a name with a number in brackets
(`OperandText`). Reading a list gives its pairs, with call points that count the pairs and not the
lines (`read_listing_roundtrip`).

More is read than is written: an operand gives its qubit by the last digits in it, if no other digit
comes before them and nothing but closing brackets after them (`LooseOperand`). These are the
operands that are read (`readOperand_eq_ok_iff`), so a minus sign or a bracket without its partner
is passed over (`read_stray_operands`).
-/

set_option autoImplicit false

namespace QubitAllocation.Dependencies

open Text Outcome

/-! ## Written operands and rows -/

/-- A name before a number: letters and underscores. -/
structure OperandName (name : List Char) : Prop where
  ne_nil : name ≠ []
  letters : ∀ c ∈ name, c.isAlpha = true ∨ c = '_'

instance (name : List Char) : Decidable (OperandName name) :=
  decidable_of_iff (name ≠ [] ∧ name.all (fun c => c.isAlpha || c == '_') = true)
    ⟨fun ⟨hne, hletters⟩ => ⟨hne, by simpa using hletters⟩,
      fun ⟨hne, hletters⟩ => ⟨hne, by simpa using hletters⟩⟩

/-- The ways to write a qubit: `3`, `q3` and `q[3]`. -/
inductive OperandText : Nat → List Char → Prop
  | number {qubit : Nat} {digits : List Char} : WordText qubit digits → OperandText qubit digits
  | named {qubit : Nat} {name digits : List Char} : OperandName name → WordText qubit digits →
      OperandText qubit (name ++ digits)
  | indexed {qubit : Nat} {name digits : List Char} : OperandName name → WordText qubit digits →
      OperandText qubit (name ++ '[' :: (digits ++ [']']))

/-- The operands alone, or after the word `cx` in any case. -/
def OperandRow (a b : List Char) (row : List (List Char)) : Prop :=
  row = [a, b] ∨ ∃ c x, (c = 'c' ∨ c = 'C') ∧ (x = 'x' ∨ x = 'X') ∧ row = [[c, x], a, b]

/-- The row of a pair. -/
def PairRow (p : Pair) (row : List (List Char)) : Prop :=
  ∃ a b, OperandText p.control a ∧ OperandText p.target b ∧ OperandRow a b row

/-- A text that lists the pairs. -/
def Lists (pairs : List Pair) (text : String) : Prop :=
  ∃ rows, List.Forall₂ PairRow pairs rows ∧ Sheet isSeparator rows text

/-! ## Characters of operands -/

theorem separatesBlanks_isSeparator : SeparatesBlanks isSeparator := by
  intro c hc
  simp [isSeparator, hc]

/-- A letter, digit, underscore or bracket can stand in an operand. -/
theorem isSeparator_eq_false {c : Char} (hlow : 48 ≤ c.toNat) (hhigh : c.toNat < 127)
    (hne : c ≠ ';') : isSeparator c = false := by
  have hcomma : c ≠ ',' := by
    rintro rfl
    exact absurd hlow (by decide)
  simp [isSeparator, isBlank_eq_false (by omega) hhigh, hne, hcomma]

theorem isSeparator_of_isDigit {c : Char} (h : c.isDigit = true) : isSeparator c = false := by
  have hne : c ≠ ';' := by
    rintro rfl
    exact absurd h (by decide)
  obtain ⟨hlow, hhigh⟩ := Char.isDigit_iff_toNat.1 h
  exact isSeparator_eq_false hlow (hhigh.trans_lt (by decide)) hne

theorem toNat_of_isAlpha {c : Char} (h : c.isAlpha = true) :
    (65 ≤ c.toNat ∧ c.toNat ≤ 90) ∨ (97 ≤ c.toNat ∧ c.toNat ≤ 122) := by
  have hcases : (c.isUpper || c.isLower) = true := h
  rw [Bool.or_eq_true] at hcases
  rcases hcases with hupper | hlower
  · exact Or.inl (of_decide_eq_true hupper)
  · have hbounds : (decide (97 ≤ c.toNat) && decide (c.toNat ≤ 122)) = true := hlower
    right
    simpa using hbounds

namespace OperandName

variable {name : List Char} {c : Char}

theorem toNat (h : OperandName name) (hc : c ∈ name) : 65 ≤ c.toNat ∧ c.toNat ≤ 122 := by
  rcases h.letters c hc with halpha | rfl
  · have := toNat_of_isAlpha halpha
    omega
  · decide

theorem isSeparator_eq (h : OperandName name) (hc : c ∈ name) : isSeparator c = false := by
  obtain ⟨hlow, hhigh⟩ := h.toNat hc
  refine isSeparator_eq_false (by omega) (by omega) ?_
  rintro rfl
  exact absurd hlow (by decide)

theorem isDigit_eq (h : OperandName name) (hc : c ∈ name) : c.isDigit = false := by
  obtain ⟨hlow, -⟩ := h.toNat hc
  rw [← Bool.not_eq_true, Char.isDigit_iff_toNat]
  rintro ⟨-, hhigh⟩
  exact absurd (hlow.trans hhigh) (by decide)

theorem no_comment (h : OperandName name) : name.head? ≠ some '#' := by
  intro hhead
  exact absurd (h.toNat (List.mem_of_head? hhead)).1 (by decide)

end OperandName

theorem OperandText.isField {qubit : Nat} {operand : List Char} (h : OperandText qubit operand) :
    IsField isSeparator operand ∧ operand.head? ≠ some '#' := by
  cases h with
  | number hq => exact ⟨hq.isField fun _ => isSeparator_of_isDigit, hq.no_comment⟩
  | @named name digits hname hq =>
    refine ⟨⟨by simp [hname.ne_nil], ?_⟩, ?_⟩
    · simp only [List.mem_append]
      rintro c (hc | hc)
      · exact hname.isSeparator_eq hc
      · exact isSeparator_of_isDigit (hq.isDigit c hc)
    · rw [List.head?_append_of_ne_nil _ hname.ne_nil]
      exact hname.no_comment
  | @indexed name digits hname hq =>
    refine ⟨⟨by simp, ?_⟩, ?_⟩
    · simp only [List.mem_append, List.mem_cons, List.not_mem_nil, or_false]
      rintro c (hc | rfl | hc | rfl)
      · exact hname.isSeparator_eq hc
      · decide
      · exact isSeparator_of_isDigit (hq.isDigit c hc)
      · decide
    · rw [List.head?_append_of_ne_nil _ hname.ne_nil]
      exact hname.no_comment

theorem PairRow.readsAsRow {p : Pair} {row : List (List Char)} (h : PairRow p row) :
    ReadsAsRow isSeparator row := by
  obtain ⟨a, b, ha, hb, hrow⟩ := h
  obtain ⟨hfield, hcomment⟩ := ha.isField
  rcases hrow with rfl | ⟨c, x, hc, hx, rfl⟩
  · refine readsAsRow_cons hfield hcomment ?_
    simp only [List.mem_singleton, forall_eq]
    exact hb.isField.1
  · have hword : IsField isSeparator [c, x] ∧ [c, x].head? ≠ some '#' := by
      rcases hc with rfl | rfl <;> rcases hx with rfl | rfl <;>
        exact ⟨by decide, by decide⟩
    refine readsAsRow_cons hword.1 hword.2 ?_
    simp only [List.mem_cons, List.not_mem_nil, or_false, forall_eq_or_imp, forall_eq]
    exact ⟨hfield, hb.isField.1⟩

/-! ## Reading an operand -/

/-- What is read as the qubit: digits with no digit before them and only closing brackets after
them. -/
def LooseOperand (qubit : Nat) (operand : List Char) : Prop :=
  ∃ stem digits brackets, (∀ c ∈ stem, c.isDigit = false) ∧ WordText qubit digits ∧
    operand = stem ++ (digits ++ List.replicate brackets ']')

/-- A stem and closing brackets that belong together. -/
def Matched (stem : List Char) (brackets : Nat) : Prop :=
  ((stem = [] ∨ OperandName stem) ∧ brackets = 0) ∨
    ∃ name, OperandName name ∧ stem = name ++ ['['] ∧ brackets = 1

theorem matched_iff {stem : List Char} {brackets : Nat} :
    ((stem = [] ∨ OperandName stem) ∧ brackets = 0) ∨
      (OperandName stem.dropLast ∧ stem = stem.dropLast ++ ['['] ∧ brackets = 1) ↔
    Matched stem brackets := by
  constructor
  · rintro (h | ⟨hname, hstem, hone⟩)
    · exact Or.inl h
    · exact Or.inr ⟨stem.dropLast, hname, hstem, hone⟩
  · rintro (h | ⟨name, hname, rfl, hone⟩)
    · exact Or.inl h
    · right
      simpa using ⟨hname, hone⟩

instance (stem : List Char) (brackets : Nat) : Decidable (Matched stem brackets) :=
  decidable_of_iff _ matched_iff

theorem Matched.isDigit_eq {stem : List Char} {brackets : Nat} (h : Matched stem brackets) :
    ∀ c ∈ stem, c.isDigit = false := by
  rcases h with ⟨rfl | hname, -⟩ | ⟨name, hname, rfl, -⟩
  · exact List.forall_mem_nil _
  · exact fun c => hname.isDigit_eq
  · simp only [List.mem_append, List.mem_singleton]
    rintro c (hc | rfl)
    · exact hname.isDigit_eq hc
    · decide

/-- A written operand is a numeral with a matching stem and brackets. -/
theorem operandText_iff {qubit : Nat} {operand : List Char} :
    OperandText qubit operand ↔ ∃ stem digits brackets, Matched stem brackets ∧
      WordText qubit digits ∧ operand = stem ++ (digits ++ List.replicate brackets ']') := by
  constructor
  · intro h
    cases h with
    | number hq => exact ⟨[], operand, 0, Or.inl ⟨Or.inl rfl, rfl⟩, hq, by simp⟩
    | @named name digits hname hq =>
      exact ⟨name, digits, 0, Or.inl ⟨Or.inr hname, rfl⟩, hq, by simp⟩
    | @indexed name digits hname hq =>
      exact ⟨name ++ ['['], digits, 1, Or.inr ⟨name, hname, rfl, rfl⟩, hq, by simp⟩
  · rintro ⟨stem, digits, brackets, ⟨rfl | hname, rfl⟩ | ⟨name, hname, rfl, rfl⟩, hq, rfl⟩
    · simpa using OperandText.number hq
    · simpa using OperandText.named hname hq
    · simpa using OperandText.indexed hname hq

theorem OperandText.loose {qubit : Nat} {operand : List Char} (h : OperandText qubit operand) :
    LooseOperand qubit operand := by
  obtain ⟨stem, digits, brackets, hmatched, hq, heq⟩ := operandText_iff.1 h
  exact ⟨stem, digits, brackets, hmatched.isDigit_eq, hq, heq⟩

/-- The digits of an operand are all that is kept of it. -/
theorem operandDigits_eq {stem digits : List Char} (hstem : ∀ c ∈ stem, c.isDigit = false)
    (hne : digits ≠ []) (hdigits : ∀ c ∈ digits, c.isDigit = true) (brackets : Nat) :
    operandDigits (stem ++ (digits ++ List.replicate brackets ']')) = digits := by
  have hbrackets : ∀ c ∈ List.replicate brackets ']', (c == ']') = true := by
    intro c hc
    rw [List.eq_of_mem_replicate hc]
    rfl
  have hlast : ∀ c ∈ digits, (c == ']') = false := by
    intro c hc
    rw [beq_eq_false_iff_ne]
    rintro rfl
    exact absurd (hdigits _ hc) (by decide)
  have hdrop : ∀ c ∈ stem, (!c.isDigit) = true := by
    intro c hc
    rw [hstem c hc]
    rfl
  -- the last digit stops the dropping of brackets, and the first one that of the stem
  obtain ⟨d, rest, rfl⟩ := List.exists_cons_of_ne_nil hne
  rw [operandDigits, ← List.append_assoc, dropEndWhile_append_of_pos hbrackets,
    dropEndWhile_of_forall_neg hne hlast, List.dropWhile_append_of_pos hdrop,
    List.dropWhile_cons_of_neg (by simp [hdigits d List.mem_cons_self])]

/-- **The operands that are read**, and the qubit each of them gives. -/
theorem readOperand_eq_ok_iff {line qubit : Nat} {operand : List Char} :
    readOperand line operand = .ok qubit ↔ LooseOperand qubit operand := by
  have hword : readOperand line operand = .ok qubit ↔
      readWord? (operandDigits operand) = some qubit := by
    rw [readOperand]
    cases readWord? (operandDigits operand) <;> simp
  rw [hword]
  constructor
  · intro h
    obtain ⟨digits, hdigits, hform⟩ := readWord?_eq_some_iff.1 h
    obtain ⟨dropped, hsplit, hdropped⟩ := dropEndWhile_append (· == ']') operand
    have hbrackets : dropped = List.replicate dropped.length ']' :=
      List.eq_replicate_iff.2 ⟨rfl, fun c hc => beq_iff_eq.1 (hdropped c hc)⟩
    -- what is kept starts with a digit, so not with a plus sign
    have hkept : operandDigits operand = digits := by
      rcases hform with hform | hform
      · exact hform
      · have hhead := List.head?_dropWhile_not (fun c : Char => !c.isDigit)
          (dropEndWhile (· == ']') operand)
        rw [← operandDigits, hform] at hhead
        have hplus : (! '+'.isDigit) = false := hhead
        exact absurd hplus (by decide)
    refine ⟨(dropEndWhile (· == ']') operand).takeWhile fun c => !c.isDigit, digits,
      dropped.length, fun c hc => ?_, hdigits, ?_⟩
    · simpa using List.mem_takeWhile_imp hc
    · rw [← hbrackets, ← hkept, operandDigits, ← List.append_assoc,
        List.takeWhile_append_dropWhile, ← hsplit]
  · rintro ⟨stem, digits, brackets, hstem, hdigits, rfl⟩
    rw [operandDigits_eq hstem hdigits.ne_nil hdigits.isDigit, hdigits.readWord?_eq]

/-- An operand has one stem, one numeral and one number of brackets. -/
theorem loose_unique {stem stem' digits digits' : List Char} {q q' brackets brackets' : Nat}
    (hstem : ∀ c ∈ stem, c.isDigit = false) (hstem' : ∀ c ∈ stem', c.isDigit = false)
    (hq : WordText q digits) (hq' : WordText q' digits')
    (heq : stem ++ (digits ++ List.replicate brackets ']') =
      stem' ++ (digits' ++ List.replicate brackets' ']')) :
    stem = stem' ∧ brackets = brackets' := by
  -- what the reader keeps of the operand is the numeral of either reading
  have hdigits : digits = digits' := by
    rw [← operandDigits_eq hstem hq.ne_nil hq.isDigit brackets, heq,
      operandDigits_eq hstem' hq'.ne_nil hq'.isDigit]
  have htake : ∀ {stem rest : List Char}, (∀ c ∈ stem, c.isDigit = false) →
      (stem ++ (digits ++ rest)).takeWhile (fun c => !c.isDigit) = stem := by
    intro stem rest h
    obtain ⟨d, ds, rfl⟩ := List.exists_cons_of_ne_nil hq.ne_nil
    rw [List.takeWhile_append_of_pos (fun c hc => by rw [h c hc]; rfl), List.cons_append,
      List.takeWhile_cons_of_neg (by simp [hq.isDigit d List.mem_cons_self]), List.append_nil]
  subst hdigits
  have hsame : stem = stem' := by
    rw [← htake hstem, heq, htake hstem']
  subst hsame
  refine ⟨rfl, ?_⟩
  simpa using congrArg List.length heq

/-- Which of the operands that are read are written so. -/
theorem exists_operandText_iff {stem digits : List Char} {q brackets : Nat}
    (hstem : ∀ c ∈ stem, c.isDigit = false) (hq : WordText q digits) :
    (∃ qubit, OperandText qubit (stem ++ (digits ++ List.replicate brackets ']'))) ↔
      Matched stem brackets := by
  constructor
  · rintro ⟨qubit, h⟩
    obtain ⟨stem', digits', brackets', hmatched, hq', heq⟩ := operandText_iff.1 h
    obtain ⟨rfl, rfl⟩ := loose_unique hstem hmatched.isDigit_eq hq hq' heq
    exact hmatched
  · intro hmatched
    exact ⟨q, operandText_iff.2 ⟨stem, digits, brackets, hmatched, hq, rfl⟩⟩

/-! ## Reading a row -/

/-- A lower-case letter comes from itself and from the capital 32 places before it. -/
theorem eq_or_eq_of_toLower {c low up : Char} (hup : up.toNat + 32 = low.toNat)
    (h : c.toLower = low) : c = low ∨ c = up := by
  by_cases hcapital : c.val ≥ 'A'.val ∧ c.val ≤ 'Z'.val
  · right
    have hle : c.toNat ≤ 90 := hcapital.2
    have hlow : c.toLower.toNat = (c.val + 32).toNat := congrArg Char.toNat (dif_pos hcapital)
    rw [h, UInt32.toNat_add] at hlow
    have hnat : low.toNat = (c.toNat + 32) % 4294967296 := hlow
    apply Char.toNat_inj.1
    omega
  · left
    have hsame : c.toLower = c := dif_neg hcapital
    exact hsame.symm.trans h

theorem sameIgnoringCase_cx_iff {word : List Char} :
    sameIgnoringCase word "cx".toList = true ↔
      ∃ c x, (c = 'c' ∨ c = 'C') ∧ (x = 'x' ∨ x = 'X') ∧ word = [c, x] := by
  have hlower : "cx".toList.map Char.toLower = ['c', 'x'] := by decide
  rw [sameIgnoringCase, beq_iff_eq, hlower]
  constructor
  · intro h
    obtain ⟨c, rest, rfl, hc, hrest⟩ := List.map_eq_cons_iff.1 h
    obtain ⟨x, rest, rfl, hx, hnil⟩ := List.map_eq_cons_iff.1 hrest
    rw [List.map_eq_nil_iff] at hnil
    subst hnil
    exact ⟨c, x, eq_or_eq_of_toLower (by decide) hc, eq_or_eq_of_toLower (by decide) hx, rfl⟩
  · rintro ⟨c, x, rfl | rfl, rfl | rfl, rfl⟩ <;> decide

theorem operands?_eq_some_iff {row : List (List Char)} {a b : List Char} :
    operands? row = some (a, b) ↔ OperandRow a b row := by
  constructor
  · intro h
    unfold operands? at h
    split at h
    · split_ifs at h with hword
      obtain ⟨c, x, hc, hx, rfl⟩ := sameIgnoringCase_cx_iff.1 hword
      cases h
      exact Or.inr ⟨c, x, hc, hx, rfl⟩
    · cases h
      exact Or.inl rfl
    · cases h
  · rintro (rfl | ⟨c, x, hc, hx, rfl⟩)
    · rfl
    · rw [operands?, if_pos (sameIgnoringCase_cx_iff.2 ⟨c, x, hc, hx, rfl⟩)]

/-- The line gives the pair: it has two operands, perhaps after `cx`, that are read as its qubits. -/
def GivesPair (line : Line) (p : Pair) : Prop :=
  ∃ a b, OperandRow a b (fieldsBy isSeparator line.text) ∧
    LooseOperand p.control a ∧ LooseOperand p.target b

theorem readPair_eq_ok_iff {line : Line} {p : Pair} :
    readPair line = .ok p ↔ GivesPair line p := by
  unfold readPair
  split
  · next a b hrow =>
    rw [operands?_eq_some_iff] at hrow
    constructor
    · intro h
      obtain ⟨control, hcontrol, h⟩ := bind_eq_ok_iff.1 h
      obtain ⟨target, htarget, h⟩ := bind_eq_ok_iff.1 h
      cases h
      exact ⟨a, b, hrow, readOperand_eq_ok_iff.1 hcontrol, readOperand_eq_ok_iff.1 htarget⟩
    · rintro ⟨a', b', hrow', ha, hb⟩
      -- the fields of a line have one pair of operands
      have hsame := (operands?_eq_some_iff.2 hrow).symm.trans (operands?_eq_some_iff.2 hrow')
      cases hsame
      rw [bind_of_eq_ok (readOperand_eq_ok_iff.2 ha), bind_of_eq_ok (readOperand_eq_ok_iff.2 hb)]
      rfl
  · next hnone =>
    constructor
    · intro h
      cases h
    · rintro ⟨a, b, hrow, -, -⟩
      rw [operands?_eq_some_iff.2 hrow] at hnone
      cases hnone

theorem error_of_readOperand {line : Nat} {operand : List Char} {e : AllocError}
    (h : readOperand line operand = .error e) : ∃ fault, e = .malformed line fault := by
  unfold readOperand at h
  split at h
  · cases h
  · cases h
    exact ⟨_, rfl⟩

/-- A refusal names the line. -/
theorem error_of_readPair {line : Line} {e : AllocError} (h : readPair line = .error e) :
    ∃ fault, e = .malformed line.number fault := by
  unfold readPair at h
  split at h
  · rcases bind_eq_error_iff.1 h with h | ⟨control, -, h⟩
    · exact error_of_readOperand h
    · rcases bind_eq_error_iff.1 h with h | ⟨target, -, h⟩
      · exact error_of_readOperand h
      · cases h
  · cases h
    exact ⟨_, rfl⟩

/-! ## Reading a list -/

variable {pairs : List Pair} {text : String}

theorem read_eq_ok_iff {deps : Dependencies} :
    read text = .ok deps ↔
      ∃ pairs, deps = ofPairs pairs ∧ List.Forall₂ GivesPair (contentLines text.toList) pairs := by
  rw [read, bind_eq_ok_iff]
  simp only [mapM_eq_ok_iff, readPair_eq_ok_iff]
  constructor
  · rintro ⟨pairs, hpairs, h⟩
    cases h
    exact ⟨pairs, rfl, hpairs⟩
  · rintro ⟨pairs, rfl, hpairs⟩
    exact ⟨pairs, hpairs, rfl⟩

/-- A list is refused at its first line that gives no pair. -/
theorem error_of_read {e : AllocError} (h : read text = .error e) :
    ∃ before line after fault, contentLines text.toList = before ++ line :: after ∧
      (∀ earlier ∈ before, ∃ p, GivesPair earlier p) ∧ (¬ ∃ p, GivesPair line p) ∧
      e = .malformed line.number fault := by
  rcases bind_eq_error_iff.1 h with h | ⟨pairs, -, h⟩
  · obtain ⟨before, line, after, hlines, hbefore, hline⟩ := mapM_eq_error_iff.1 h
    obtain ⟨fault, rfl⟩ := error_of_readPair hline
    simp only [readPair_eq_ok_iff] at hbefore
    refine ⟨before, line, after, fault, hlines, hbefore, ?_, rfl⟩
    rintro ⟨p, hp⟩
    rw [readPair_eq_ok_iff.2 hp] at hline
    cases hline
  · cases h

theorem forall₂_givesPair_of_lists (h : Lists pairs text) :
    List.Forall₂ GivesPair (contentLines text.toList) pairs := by
  obtain ⟨rows, hpairs, hsheet⟩ := h
  have hrows : ∀ row ∈ rows, ReadsAsRow isSeparator row := by
    intro row hrow
    obtain ⟨p, -, hp⟩ := exists_of_forall₂ hpairs hrow
    exact hp.readsAsRow
  -- the rows are the fields of the content lines, so the pairs go with these lines
  rw [← hsheet.fields_contentLines separatesBlanks_isSeparator hrows,
    List.forall₂_map_right_iff] at hpairs
  refine List.Forall₂.flip (hpairs.imp fun p line hp => ?_)
  obtain ⟨a, b, ha, hb, hrow⟩ := hp
  exact ⟨a, b, hrow, ha.loose, hb.loose⟩

theorem getElem?_ofPairs (pairs : List Pair) (k : Nat) :
    (ofPairs pairs)[k]? = (pairs[k]?).map (Dependency.single k) := by
  rw [ofPairs, List.getElem?_map, List.getElem?_zipIdx, Nat.zero_add]
  cases pairs[k]? <;> rfl

/-- **Lists and dependencies.** Whatever way of writing it is chosen, a list of pairs is read as
these pairs, and the call point of a pair is its place among the pairs. -/
theorem read_listing_roundtrip (h : Lists pairs text) :
    read text = .ok (ofPairs pairs) ∧
      ∀ k, (ofPairs pairs)[k]? = (pairs[k]?).map (Dependency.single k) :=
  ⟨read_eq_ok_iff.2 ⟨pairs, rfl, forall₂_givesPair_of_lists h⟩, getElem?_ofPairs pairs⟩

/-- Operands of all three forms, with and without `cx`, and lines that carry no pair. -/
theorem read_listing_roundtrip_forms :
    let text := "cx q[0], q_1;\n\n # skip\n2 4\ncX;r3,,0 \n"
    let pairs : List Pair := [⟨0, 1⟩, ⟨2, 4⟩, ⟨3, 0⟩]
    Lists pairs text ∧ read text = .ok (ofPairs pairs) := by
  intro text pairs
  have hfirst : ShowsRow isSeparator [['c', 'x'], ['q', '[', '0', ']'], ['q', '_', '1']]
      "cx q[0], q_1;".toList :=
    ⟨[], _, by decide, @Spread.more _ _ [' '] _ _ (by decide) (by decide)
      (@Spread.more _ _ [',', ' '] _ _ (by decide) (by decide) (@Spread.last _ _ [';'] (by decide))),
      by decide +kernel⟩
  have hlast : ShowsRow isSeparator [['c', 'X'], ['r', '3'], ['0']] "cX;r3,,0 ".toList :=
    ⟨[], _, by decide, @Spread.more _ _ [';'] _ _ (by decide) (by decide)
      (@Spread.more _ _ [',', ','] _ _ (by decide) (by decide) (@Spread.last _ _ [' '] (by decide))),
      by decide +kernel⟩
  have hlists : Lists pairs text := by
    refine ⟨[[['c', 'x'], ['q', '[', '0', ']'], ['q', '_', '1']], [['2'], ['4']],
      [['c', 'X'], ['r', '3'], ['0']]], ?_, ?_⟩
    · refine .cons ⟨_, _, @OperandText.indexed 0 ['q'] ['0'] (by decide) (by decide),
        @OperandText.named 1 ['q', '_'] ['1'] (by decide) (by decide), Or.inr ?_⟩
        (.cons ⟨_, _, .number (by decide), .number (by decide), Or.inl rfl⟩
        (.cons ⟨_, _, @OperandText.named 3 ['r'] ['3'] (by decide) (by decide),
          .number (by decide : WordText 0 ['0']), Or.inr ?_⟩ .nil))
      · exact ⟨'c', 'x', Or.inl rfl, Or.inl rfl, rfl⟩
      · exact ⟨'c', 'X', Or.inl rfl, Or.inr rfl, rfl⟩
    · refine ⟨_, .row hfirst (.idle (Or.inl (by decide : Gap isBlank []))
        (.idle (Or.inr ⟨[' '], " skip".toList, by decide, by decide, rfl⟩)
        (.row (showsRow_pair [] [' '] [] (by decide) (by decide) (by decide))
        (.row hlast (.idle (Or.inl (by decide : Gap isBlank [])) .nil))))), ?_⟩
      decide +kernel
  exact ⟨hlists, (read_listing_roundtrip hlists).1⟩

/-- **What a text is read as.** It is accepted exactly if every content line has two operands, with
or without `cx`, and both are read as qubits; these are the pairs. Otherwise the first line for which
this fails is named. An operand that is read as a qubit is written like one exactly if what stands
before its digits and the brackets after them match. -/
theorem read_loose_operands (text : String) :
    (∀ deps, read text = .ok deps ↔ ∃ pairs, deps = ofPairs pairs ∧
      List.Forall₂ GivesPair (contentLines text.toList) pairs) ∧
    (∀ e, read text = .error e → ∃ before line after fault k raw,
      contentLines text.toList = before ++ line :: after ∧
      (text.toList.splitOn '\n')[k]? = some raw ∧ line = ⟨k + 1, trim raw⟩ ∧
      (∀ earlier ∈ before, ∃ p, GivesPair earlier p) ∧ (¬ ∃ p, GivesPair line p) ∧
      e = .malformed (k + 1) fault) ∧
    ∀ stem digits brackets qubit, (∀ c ∈ stem, c.isDigit = false) → WordText qubit digits →
      ((∃ q, OperandText q (stem ++ (digits ++ List.replicate brackets ']'))) ↔
        Matched stem brackets) := by
  refine ⟨fun deps => read_eq_ok_iff, fun e he => ?_, fun _ _ _ _ => exists_operandText_iff⟩
  obtain ⟨before, line, after, fault, hlines, hbefore, hline, rfl⟩ := error_of_read he
  have hmem : line ∈ contentLines text.toList := by simp [hlines]
  obtain ⟨k, raw, hraw, rfl⟩ := exists_of_mem_contentLines hmem
  exact ⟨before, _, after, fault, k, raw, hlines, hraw, rfl, hbefore, hline, rfl⟩

/-- A minus sign and an open bracket are passed over, although neither operand is written as a
qubit. -/
theorem read_stray_operands :
    read "-1 q[2" = .ok (ofPairs [⟨1, 2⟩]) ∧ (¬ ∃ q, OperandText q ['-', '1']) ∧
      ¬ ∃ q, OperandText q ['q', '[', '2'] := by
  have hminus := @exists_operandText_iff ['-'] ['1'] 1 0 (List.forall_mem_singleton.2 rfl) (by decide)
  have hopen := @exists_operandText_iff ['q', '['] ['2'] 2 0
    (List.forall_mem_cons.2 ⟨rfl, List.forall_mem_singleton.2 rfl⟩) (by decide)
  exact ⟨by decide +kernel, hminus.not.2 (by decide), hopen.not.2 (by decide)⟩

end QubitAllocation.Dependencies
