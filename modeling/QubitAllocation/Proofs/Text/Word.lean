import QubitAllocation.Text.Number
import QubitAllocation.Proofs.Text.Sheet

/-!
# Written words

A numeral (`WordText`) is a list of ASCII digits, with leading zeros or without, that denotes a
number of 32 bits in decimal notation. The texts that `readWord?` takes for a number are the
numerals, and the numerals with a plus sign in front (`readWord?_eq_some_iff`).
-/

set_option autoImplicit false

namespace QubitAllocation.Text

/-- Digits that denote the value, which fits 32 bits. -/
structure WordText (value : Nat) (digits : List Char) : Prop where
  ne_nil : digits ≠ []
  isDigit : ∀ c ∈ digits, c.isDigit = true
  value_eq : Nat.ofDigitChars 10 digits 0 = value
  le : value ≤ wordMax

instance (value : Nat) (digits : List Char) : Decidable (WordText value digits) :=
  decidable_of_iff (digits ≠ [] ∧ digits.all Char.isDigit = true ∧
      Nat.ofDigitChars 10 digits 0 = value ∧ value ≤ wordMax)
    ⟨fun ⟨hne, hdigit, hvalue, hle⟩ => ⟨hne, List.all_eq_true.1 hdigit, hvalue, hle⟩,
      fun ⟨hne, hdigit, hvalue, hle⟩ => ⟨hne, List.all_eq_true.2 hdigit, hvalue, hle⟩⟩

variable {n : Nat} {cs digits : List Char}

theorem WordText.not_mem {c : Char} (h : WordText n digits) (hc : c.isDigit = false) :
    c ∉ digits := by
  intro hmem
  rw [h.isDigit c hmem] at hc
  cases hc

theorem isBlank_of_isDigit {c : Char} (h : c.isDigit = true) : isBlank c = false := by
  obtain ⟨hlow, hhigh⟩ := Char.isDigit_iff_toNat.1 h
  exact isBlank_eq_false (Nat.lt_of_lt_of_le (by decide) hlow) (hhigh.trans_lt (by decide))

theorem WordText.isField {sep : Char → Bool} (hsep : ∀ c, c.isDigit = true → sep c = false)
    (h : WordText n digits) : IsField sep digits :=
  ⟨h.ne_nil, fun c hc => hsep c (h.isDigit c hc)⟩

theorem WordText.no_comment (h : WordText n digits) : digits.head? ≠ some '#' := by
  intro hhead
  exact h.not_mem (by decide) (List.mem_of_head? hhead)

/-! ## Reading -/

/-- Digits read after a number make it no smaller. -/
theorem le_ofDigitChars (cs : List Char) (acc : Nat) : acc ≤ Nat.ofDigitChars 10 cs acc := by
  induction cs generalizing acc with
  | nil => simp
  | cons c cs ih =>
    rw [Nat.ofDigitChars_cons]
    have hle := ih (10 * acc + (c.toNat - '0'.toNat))
    omega

theorem readDigits_eq_ok_iff {acc : Nat} (hacc : acc ≤ wordMax) :
    readDigits acc cs = .ok n ↔
      (∀ c ∈ cs, c.isDigit = true) ∧ Nat.ofDigitChars 10 cs acc = n ∧ n ≤ wordMax := by
  induction cs generalizing acc with
  | nil =>
    simp only [readDigits, Except.ok.injEq, List.not_mem_nil, false_implies, implies_true,
      Nat.ofDigitChars_nil, true_and]
    exact ⟨fun h => ⟨h, h ▸ hacc⟩, fun h => h.1⟩
  | cons c cs ih =>
    rw [readDigits, List.forall_mem_cons, Nat.ofDigitChars_cons]
    by_cases hc : c.isDigit = true
    · simp only [hc, if_true, true_and]
      split_ifs with hle
      · exact ih hle
      · -- the value only grows, so no later digit brings it back
        have hgrows := le_ofDigitChars cs (10 * acc + (c.toNat - '0'.toNat))
        rw [digitValue] at hle
        constructor
        · intro h
          cases h
        · rintro ⟨-, hvalue, hn⟩
          omega
    · simp [hc]

theorem readDigits_zero_eq_ok_iff (hne : cs ≠ []) :
    readDigits 0 cs = .ok n ↔ WordText n cs := by
  rw [readDigits_eq_ok_iff (Nat.zero_le _)]
  constructor
  · rintro ⟨hdigit, hvalue, hn⟩
    exact ⟨hne, hdigit, hvalue, hn⟩
  · intro h
    exact ⟨h.isDigit, h.value_eq, h.le⟩

theorem readWord_eq_ok_iff :
    readWord cs = .ok n ↔ ∃ digits, WordText n digits ∧ (cs = digits ∨ cs = '+' :: digits) := by
  have hplus : ∀ {rest : List Char}, ¬ WordText n ('+' :: rest) := fun h =>
    h.not_mem (by decide) List.mem_cons_self
  unfold readWord
  split
  · simp only [reduceCtorEq, false_iff]
    rintro ⟨digits, h, rfl | hcs⟩
    · exact h.ne_nil rfl
    · cases hcs
  · simp only [reduceCtorEq, false_iff]
    rintro ⟨digits, h, rfl | hcs⟩
    · exact hplus h
    · cases hcs
      exact h.ne_nil rfl
  · next rest hne =>
    rw [readDigits_zero_eq_ok_iff fun hnil => hne (by rw [hnil])]
    constructor
    · intro h
      exact ⟨rest, h, Or.inr rfl⟩
    · rintro ⟨digits, h, rfl | hcs⟩
      · exact absurd h hplus
      · cases hcs
        exact h
  · next hne _ hfirst =>
    rw [readDigits_zero_eq_ok_iff hne]
    constructor
    · intro h
      exact ⟨cs, h, Or.inl rfl⟩
    · rintro ⟨digits, h, rfl | hcs⟩
      · exact h
      · exact absurd hcs (hfirst digits)

/-- **The texts of 32-bit numbers** are numerals, with a plus sign or without. -/
theorem readWord?_eq_some_iff :
    readWord? cs = some n ↔ ∃ digits, WordText n digits ∧ (cs = digits ∨ cs = '+' :: digits) := by
  rw [← readWord_eq_ok_iff, readWord?]
  cases readWord cs <;> simp [Except.toOption]

theorem WordText.readWord?_eq (h : WordText n digits) : readWord? digits = some n :=
  readWord?_eq_some_iff.2 ⟨digits, h, Or.inl rfl⟩

end QubitAllocation.Text
