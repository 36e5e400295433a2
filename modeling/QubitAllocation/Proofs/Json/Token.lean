import QubitAllocation.Json.Printer
import QubitAllocation.Json.Token
import Mathlib.Tactic

/-!
# Texts and their tokens

`JsonToken.Lexeme t cs` says that the characters `cs` write the token `t`: a bracket, a word, a
natural number in decimal, or a text between quotes in which what must be escaped is escaped.
`JsonToken.Spells cs ts` says that the text `cs` is made of lexemes of the tokens `ts` in order,
with blanks anywhere between them. A number must not run into what follows it (`JsonToken.Closes`).

Such a text is read as those tokens and no others (`JsonToken.Spells.readAll?_eq`). For strings this
rests on the two passes of the reader: the code units that it finds are those of the characters
(`Quoted.readUnits_escape`), and no character is half of a surrogate pair
(`Quoted.joinUnits_toNat`).
-/

set_option autoImplicit false

namespace QubitAllocation

namespace Quoted

variable {c : Char} {cs rest : List Char} {done : List Nat}

/-! ## Quoted strings -/

/-- The two last digits of an escaped control character give it back. -/
theorem hexUnit?_control : ∀ n < 32,
    hexUnit? '0' '0' (hexDigit (n / 16)) (hexDigit (n % 16)) = some n := by
  decide

theorem readUnits_shortEscape {unit : Nat} (hc : shortEscape? c = some unit) :
    readUnits done ('\\' :: c :: rest) = readUnits (unit :: done) rest := by
  have hne : c ≠ 'u' := by
    rintro rfl
    cases hc
  rw [readUnits, hc]
  exact fun _ _ _ _ _ h => absurd h hne

theorem readUnits_plain (hquote : c ≠ '"') (hslash : c ≠ '\\') (hc : ¬ c.toNat < 32) :
    readUnits done (c :: rest) = readUnits (c.toNat :: done) rest := by
  rw [readUnits, if_neg hc]
  · exact hquote
  · exact fun _ _ _ _ _ h => absurd h hslash
  · exact fun _ _ h => absurd h hslash

/-- Escaped or not, a character is read as its own code unit. -/
theorem readUnits_escape (c : Char) (done : List Nat) (rest : List Char) :
    readUnits done (escape c ++ rest) = readUnits (c.toNat :: done) rest := by
  unfold escape
  split
  case h_8 hquote hslash _ _ _ _ _ =>
    split_ifs with hcontrol
    · show readUnits done ('\\' :: 'u' :: '0' :: '0' :: _ :: _ :: rest) = _
      rw [readUnits, hexUnit?_control _ hcontrol]
    · apply readUnits_plain _ _ hcontrol
      · rintro rfl
        exact hquote rfl
      · rintro rfl
        exact hslash rfl
  -- the seven characters that have a short escape
  all_goals
    rename_i hc
    rw [hc]
    exact readUnits_shortEscape rfl

theorem readUnits_flatMap_escape :
    readUnits done (cs.flatMap escape ++ '"' :: rest) =
      some (done.reverse ++ cs.map Char.toNat, rest) := by
  induction cs generalizing done with
  | nil => rw [List.flatMap_nil, List.nil_append, readUnits, List.map_nil, List.append_nil]
  | cons c cs ih =>
    rw [List.flatMap_cons, List.append_assoc, readUnits_escape, ih, List.reverse_cons,
      List.append_assoc, List.map_cons]
    rfl

/-- No character is half of a surrogate pair. -/
theorem not_half (c : Char) : isHighHalf c.toNat = false ∧ isLowHalf c.toNat = false := by
  have hvalid : c.toNat < 0xD800 ∨ 0xDFFF < c.toNat ∧ c.toNat < 0x110000 := c.valid
  simp only [isHighHalf, isLowHalf, Bool.and_eq_false_iff, decide_eq_false_iff_not]
  omega

/-- The code units of characters are joined to those characters. -/
theorem joinUnits_toNat (done : List Char) (cs : List Char) :
    joinUnits done (cs.map Char.toNat) = some (done.reverse ++ cs) := by
  induction cs generalizing done with
  | nil => rw [List.map_nil, joinUnits, List.append_nil]
  | cons c cs ih =>
    obtain ⟨hhigh, hlow⟩ := not_half c
    have hstep : joinUnits done ((c :: cs).map Char.toNat) =
        joinUnits (c :: done) (cs.map Char.toNat) := by
      cases cs with
      | nil => simp [joinUnits, hhigh, hlow]
      | cons c' cs => simp [joinUnits, hhigh, hlow]
    rw [hstep, ih, List.reverse_cons, List.append_assoc, List.singleton_append]

/-- **What is written between quotes is read back.** -/
theorem read_write (s : String) (rest : List Char) :
    read (s.toList.flatMap escape ++ '"' :: rest) = some (some s, rest) := by
  rw [read, readUnits_flatMap_escape, List.reverse_nil, List.nil_append]
  dsimp only
  rw [joinUnits_toNat, List.reverse_nil, List.nil_append, Option.map_some, String.ofList_toList]

end Quoted

namespace JsonToken

variable {t : JsonToken} {ts : List JsonToken} {c : Char} {cs lexeme rest digits : List Char}

/-! ## Numbers -/

/-- A number ends where this text begins: it goes on with nothing that belongs to a number. -/
def Closes (rest : List Char) : Prop :=
  ∀ c ∈ rest.head?, c.isDigit = false ∧ c ≠ '.' ∧ c ≠ 'e' ∧ c ≠ 'E'

theorem closes_nil : Closes [] := by
  rintro c ⟨⟩

theorem closes_cons (hdigit : c.isDigit = false) (hpoint : c ≠ '.') (hlower : c ≠ 'e')
    (hupper : c ≠ 'E') : Closes (c :: cs) := by
  rintro c ⟨⟩
  exact ⟨hdigit, hpoint, hlower, hupper⟩

theorem exists_toDigits (n : Nat) :
    ∃ c cs, Nat.toDigits 10 n = c :: cs ∧ c.isDigit = true := by
  obtain ⟨c, cs, hcs⟩ := List.exists_cons_of_ne_nil (Nat.toDigits_ne_nil (b := 10) (n := n))
  refine ⟨c, cs, hcs, Nat.isDigit_of_mem_toDigits (b := 10) (n := n) (by decide) (by decide) ?_⟩
  rw [hcs]
  exact List.mem_cons_self

/-- The digits of a positive number do not start with a zero. -/
theorem head?_toDigits {n : Nat} (hn : 0 < n) : (Nat.toDigits 10 n).head? ≠ some '0' := by
  have hdigit : ∀ m < 10, 0 < m → [Nat.digitChar m].head? ≠ some '0' := by decide
  induction n using Nat.strong_induction_on with
  | _ n ih =>
    rcases Nat.lt_or_ge n 10 with hlt | hge
    · rw [Nat.toDigits_of_lt_base hlt]
      exact hdigit n hlt hn
    · rw [Nat.toDigits_of_base_le (by decide) hge,
        List.head?_append_of_ne_nil _ Nat.toDigits_ne_nil]
      exact ih (n / 10) (by omega) (by omega)

theorem readDigits?_append (hne : digits ≠ []) (hdigits : ∀ c ∈ digits, c.isDigit = true)
    (hrest : Closes rest) : readDigits? (digits ++ rest) = some (digits, rest) := by
  have hstop : rest.takeWhile Char.isDigit = [] ∧ rest.dropWhile Char.isDigit = rest := by
    cases rest with
    | nil => exact ⟨rfl, rfl⟩
    | cons c rest =>
      have hc := (hrest c rfl).1
      exact ⟨List.takeWhile_cons_of_neg (by simp [hc]), List.dropWhile_cons_of_neg (by simp [hc])⟩
  rw [readDigits?, List.span_eq_takeWhile_dropWhile, List.takeWhile_append_of_pos hdigits,
    List.dropWhile_append_of_pos hdigits, hstop.1, hstop.2, List.append_nil]
  cases digits with
  | nil => exact absurd rfl hne
  | cons c digits => rfl

theorem readWhole?_toDigits (n : Nat) (hrest : Closes rest) :
    readWhole? (Nat.toDigits 10 n ++ rest) = some (n, rest) := by
  rcases Nat.eq_zero_or_pos n with rfl | hn
  · rfl
  · have hread : readDigits? (Nat.toDigits 10 n ++ rest) = some (Nat.toDigits 10 n, rest) :=
      readDigits?_append Nat.toDigits_ne_nil
        (fun c hc => Nat.isDigit_of_mem_toDigits (by decide) (by decide) hc) hrest
    have hvalue : digitsValue (Nat.toDigits 10 n) = n :=
      Nat.ofDigitChars_toDigits (by decide) (by decide)
    rw [readWhole?, hread, Option.map_some, hvalue]
    -- a zero in front would be read alone
    intro tail h
    have hhead := head?_toDigits hn
    rw [← List.head?_append_of_ne_nil _ Nat.toDigits_ne_nil, h] at hhead
    exact hhead rfl

theorem readFraction?_of_closes (hrest : Closes rest) : readFraction? rest = some ([], rest) := by
  rw [readFraction?]
  rintro tail rfl
  exact (hrest '.' rfl).2.1 rfl

theorem readExponent?_of_closes (hrest : Closes rest) : readExponent? rest = some (none, rest) := by
  rw [readExponent?]
  · rintro tail rfl
    exact (hrest 'e' rfl).2.2.1 rfl
  · rintro tail rfl
    exact (hrest 'E' rfl).2.2.2 rfl

/-- **A natural number is read back from its decimal digits.** -/
theorem readNumeral?_toDigits (n : Nat) (hrest : Closes rest) :
    readNumeral? (Nat.toDigits 10 n ++ rest) = some (.ofNat n, rest) := by
  rw [readNumeral?, readUnsigned?, readWhole?_toDigits n hrest]
  · dsimp only [Option.bind_eq_bind, Option.bind_some]
    rw [readFraction?_of_closes hrest]
    dsimp only [Option.bind_some]
    rw [readExponent?_of_closes hrest]
    rfl
  · intro tail h
    obtain ⟨c, cs, hcs, hc⟩ := exists_toDigits n
    rw [hcs] at h
    cases h
    cases hc

/-! ## Lexemes -/

/-- The characters that write a token. -/
inductive Lexeme : JsonToken → List Char → Prop
  | openArray : Lexeme .openArray ['[']
  | closeArray : Lexeme .closeArray [']']
  | openObject : Lexeme .openObject ['\x7b']
  | closeObject : Lexeme .closeObject ['\x7d']
  | comma : Lexeme .comma [',']
  | colon : Lexeme .colon [':']
  | null : Lexeme .null "null".toList
  | bool (b : Bool) : Lexeme (.bool b) (toString b).toList
  | nat (n : Nat) : Lexeme (.number (.ofNat n)) (Nat.toDigits 10 n)
  | text (s : String) : Lexeme (.string (some s)) (Quoted.write s)

theorem isBlank_of_isDigit (hc : c.isDigit = true) : isBlank c = false := by
  by_contra hblank
  simp only [isBlank, Bool.not_eq_false, Bool.or_eq_true, beq_iff_eq] at hblank
  rcases hblank with ((rfl | rfl) | rfl) | rfl
  all_goals cases hc

/-- A lexeme begins with a character, and that is no blank. -/
theorem Lexeme.exists_cons (h : Lexeme t lexeme) :
    ∃ c cs, lexeme = c :: cs ∧ isBlank c = false := by
  cases h with
  | nat n =>
    obtain ⟨c, cs, hcs, hc⟩ := exists_toDigits n
    exact ⟨c, cs, hcs, isBlank_of_isDigit hc⟩
  | bool b => cases b <;> exact ⟨_, _, rfl, rfl⟩
  | _ => exact ⟨_, _, rfl, rfl⟩

theorem read?_of_isDigit (hc : c.isDigit = true) :
    read? (c :: cs) = (readNumeral? (c :: cs)).map fun r => (.number r.1, r.2) := by
  rw [read?]
  all_goals
    intro tail h
    cases h
    cases hc

/-- **A token is read back from its lexeme.** -/
theorem Lexeme.read?_eq (h : Lexeme t lexeme) (hrest : ∀ n, t = .number n → Closes rest) :
    read? (lexeme ++ rest) = some (t, rest) := by
  cases h with
  | nat n =>
    obtain ⟨c, cs, hcs, hc⟩ := exists_toDigits n
    have hread := readNumeral?_toDigits n (hrest _ rfl)
    rw [hcs, List.cons_append] at hread ⊢
    rw [read?_of_isDigit hc, hread, Option.map_some]
  | text s =>
    rw [Quoted.write, List.cons_append, List.append_assoc, read?, List.singleton_append,
      Quoted.read_write, Option.map_some]
  | bool b => cases b <;> rfl
  | _ => rfl

/-! ## Texts -/

/-- The text is made of lexemes of the tokens in order, with blanks anywhere between them. -/
inductive Spells : List Char → List JsonToken → Prop
  | nil : Spells [] []
  | blank {c : Char} {cs : List Char} {ts : List JsonToken} : isBlank c = true → Spells cs ts →
      Spells (c :: cs) ts
  | token {t : JsonToken} {lexeme rest : List Char} {ts : List JsonToken} : Lexeme t lexeme →
      (∀ n, t = .number n → Closes rest) → Spells rest ts → Spells (lexeme ++ rest) (t :: ts)

theorem Spells.gap {gap : List Char} (hgap : ∀ c ∈ gap, isBlank c = true) (h : Spells cs ts) :
    Spells (gap ++ cs) ts := by
  induction gap with
  | nil => exact h
  | cons c gap ih =>
    rw [List.forall_mem_cons] at hgap
    exact .blank hgap.1 (ih hgap.2)

/-- Each token takes at least one character. -/
theorem Spells.length_le (h : Spells cs ts) : ts.length ≤ cs.length := by
  induction h with
  | nil => exact Nat.le_refl 0
  | blank _ _ ih => exact ih.trans (Nat.le_succ _)
  | token hlexeme _ _ ih =>
    obtain ⟨c, lexeme, rfl, -⟩ := hlexeme.exists_cons
    simp only [List.length_cons, List.cons_append, List.length_append]
    omega

theorem readFrom_blank {fuel : Nat} {done : List JsonToken} (hc : isBlank c = true) :
    readFrom fuel done (c :: cs) = readFrom fuel done cs := by
  have hskip : skipBlanks (c :: cs) = skipBlanks cs := List.dropWhile_cons_of_pos hc
  unfold readFrom
  rw [hskip]

theorem readFrom_lexeme {fuel : Nat} {done : List JsonToken} (h : Lexeme t lexeme)
    (hrest : ∀ n, t = .number n → Closes rest) :
    readFrom (fuel + 1) done (lexeme ++ rest) = readFrom fuel (t :: done) rest := by
  obtain ⟨c, cs, hcs, hc⟩ := h.exists_cons
  have hread := h.read?_eq hrest
  rw [hcs, List.cons_append] at hread ⊢
  have hskip : skipBlanks (c :: (cs ++ rest)) = c :: (cs ++ rest) :=
    List.dropWhile_cons_of_neg (by simp [hc])
  rw [readFrom.eq_def, hskip]
  dsimp only
  rw [hread]

theorem Spells.readFrom_eq (h : Spells cs ts) {fuel : Nat} {done : List JsonToken}
    (hfuel : ts.length ≤ fuel) : readFrom fuel done cs = some (done.reverse ++ ts) := by
  induction h generalizing fuel done with
  | nil =>
    rw [List.append_nil]
    cases fuel <;> rfl
  | blank hc _ ih => rw [readFrom_blank hc, ih hfuel]
  | token hlexeme hrest _ ih =>
    -- only a token uses up fuel, and there is some for each
    obtain ⟨fuel, rfl⟩ := Nat.exists_eq_add_of_le' hfuel
    rw [List.length_cons, ← Nat.add_assoc, readFrom_lexeme hlexeme hrest, ih (by omega),
      List.reverse_cons, List.append_assoc, List.singleton_append]

/-- **A text is read as the tokens that it spells.** -/
theorem Spells.readAll?_eq (h : Spells cs ts) : readAll? cs = some ts :=
  h.readFrom_eq h.length_le

end JsonToken

end QubitAllocation
