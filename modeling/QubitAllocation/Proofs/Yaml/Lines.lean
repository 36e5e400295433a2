import QubitAllocation.Yaml.TokenReader
import Mathlib.Tactic

/-!
# Tokens of plain block mappings

What the token reader does on the lines of a block mapping whose keys and values are words: name
characters, the first of them a letter or a digit. The reader leaves places open for a key before it
knows whether there is one, and the colon fills them (`readFrom_key`). A value runs up to the next
line (`readFrom_value`). The value may also be a block on the lines below (`readFrom_newline`), which
ends where a line starts further left (`readFrom_dedent`).

Between two lines the reader stands behind the blanks of the next one (`landing`). A plain scalar
looks further than its own line, so each of these steps asks where the text goes on (`GoesOn`).
-/

set_option autoImplicit false

namespace QubitAllocation.Yaml

/-! ## Words -/

/-- Name characters, the first of them a letter or a digit. -/
structure IsWord (cs : List Char) : Prop where
  head : ∃ c rest, cs = c :: rest ∧ c.isAlphanum = true
  chars : ∀ c ∈ cs, isNameChar c = true

instance (cs : List Char) : Decidable (IsWord cs) :=
  decidable_of_iff (cs.head?.any Char.isAlphanum = true ∧ cs.all isNameChar = true) <| by
    constructor
    · rintro ⟨hhead, hchars⟩
      cases cs with
      | nil => cases hhead
      | cons c cs => exact ⟨⟨c, cs, rfl, hhead⟩, List.all_eq_true.1 hchars⟩
    · rintro ⟨⟨c, cs, rfl, hc⟩, hchars⟩
      exact ⟨hc, List.all_eq_true.2 hchars⟩

section Words

variable {c x : Char} {cs rest done : List Char} {indent : Nat} {place : Place}

theorem isNameChar_of_isAlphanum (h : c.isAlphanum = true) : isNameChar c = true := by
  simp [isNameChar, h]

/-- A name character is none of the characters with a meaning of their own. -/
theorem beq_of_isNameChar (h : isNameChar c = true) (hx : isNameChar x = false) :
    (c == x) = false := by
  rw [beq_eq_false_iff_ne]
  rintro rfl
  rw [h] at hx
  cases hx

theorem toNat_of_isNameChar (h : isNameChar c = true) : 45 ≤ c.toNat ∧ c.toNat ≤ 122 := by
  have hcases : (((c.isUpper || c.isLower) || c.isDigit) || c == '-' || c == '_') = true := h
  simp only [Bool.or_eq_true, beq_iff_eq] at hcases
  rcases hcases with (((hupper | hlower) | hdigit) | rfl) | rfl
  · have hbounds : 65 ≤ c.toNat ∧ c.toNat ≤ 90 := of_decide_eq_true hupper
    omega
  · have hbounds : (decide (97 ≤ c.toNat) && decide (c.toNat ≤ 122)) = true := hlower
    simp only [Bool.and_eq_true, decide_eq_true_eq] at hbounds
    omega
  · have hbounds := Char.isDigit_iff_toNat.1 hdigit
    have hzero : '0'.toNat = 48 := rfl
    have hnine : '9'.toNat = 57 := rfl
    omega
  · decide
  · decide

/-- Name characters take one byte each. -/
theorem utf8Size_of_isNameChar (h : isNameChar c = true) : c.utf8Size = 1 := by
  have hbounds := toNat_of_isNameChar h
  have hle : c.val ≤ 127 := by
    rw [UInt32.le_iff_toNat_le]
    show c.toNat ≤ 127
    omega
  simp [Char.utf8Size, hle]

theorem after_of_isNameChar (h : isNameChar c = true) (p : Place) :
    p.after c = ⟨p.line, p.column + 1, p.bytes + 1⟩ := by
  rw [Place.after, beq_of_isNameChar h (by decide), utf8Size_of_isNameChar h]
  rfl

theorem along_of_isNameChar (h : ∀ c ∈ cs, isNameChar c = true) (p : Place) :
    p.along cs = ⟨p.line, p.column + cs.length, p.bytes + cs.length⟩ := by
  induction cs generalizing p with
  | nil => rfl
  | cons c cs ih =>
    rw [List.forall_mem_cons] at h
    rw [Place.along, List.foldl_cons, ← Place.along, after_of_isNameChar h.1, ih h.2]
    simp only [List.length_cons, Place.mk.injEq, true_and]
    omega

/-- Name characters are taken into a plain scalar one by one. -/
theorem readPlain_append (h : ∀ c ∈ cs, isNameChar c = true) :
    readPlain false indent done .empty place (cs ++ rest) =
      readPlain false indent (cs.reverse ++ done) .empty (place.along cs) rest := by
  induction cs generalizing done place with
  | nil => rfl
  | cons c cs ih =>
    rw [List.forall_mem_cons] at h
    have hne : ∀ x, isNameChar x = false → (c == x) = false := fun x => beq_of_isNameChar h.1
    have hblank : isBlank c = false := by
      simp only [isBlank, hne ' ' (by decide), hne '\t' (by decide), Bool.or_self]
    rw [List.cons_append, readPlain]
    simp only [hne '\n' (by decide), hblank, hne ':' (by decide), bne_self_eq_false, Bool.false_and,
      Bool.and_false, Bool.or_self, Bool.false_eq_true, if_false]
    rw [ih h.2, List.reverse_cons, List.append_assoc, List.singleton_append]
    rfl

/-- A plain scalar ends at a colon that a blank or the end of the line follows. -/
theorem readPlain_colon (hrest : parted rest = true) :
    readPlain false indent done .empty place (':' :: rest) =
      some ⟨String.ofList done.reverse, false, ⟨':' :: rest, place⟩⟩ := by
  rw [readPlain]
  simp [isBlank, hrest, Gap.isBroken, Gap.empty]

/-- Line feeds are the normal line ends. -/
theorem normalEnds_eq (h : ∀ c ∈ cs, c = '\n' ∨ isLineEnd c = false) :
    normalEnds done cs = done.reverse ++ cs := by
  fun_induction normalEnds done cs with
  | case1 done => simp
  | case2 done cs ih => exact absurd (h '\r' (List.mem_cons_self ..)) (by decide)
  | case3 done c cs hcr ih =>
    rw [List.forall_mem_cons] at h
    have hc : (if isLineEnd c then '\n' else c) = c := by
      rcases h.1 with rfl | hend
      · rfl
      · simp [hend]
    rw [ih h.2, hc, List.reverse_cons, List.append_assoc, List.singleton_append]

end Words

/-! ## Where a line goes on -/

/-- Where a text goes on at the start of a line: behind its blanks. -/
def landing (line : Nat) (cs : List Char) : Source :=
  let column := (cs.takeWhile (· == ' ')).length
  ⟨cs.dropWhile (· == ' '), ⟨line, column, column⟩⟩

/-- The text is over or goes on at most `c` columns to the right, with a letter or a digit. -/
inductive GoesOn (c : Nat) : List Char → Prop
  | ended : GoesOn c []
  | row {n : Nat} {x : Char} {cs : List Char} : n ≤ c → x.isAlphanum = true →
      GoesOn c (List.replicate n ' ' ++ x :: cs)

section Landing

variable {c n line indent : Nat} {x : Char} {cs done : List Char}

theorem landing_row (hx : x.isAlphanum = true) :
    landing line (List.replicate n ' ' ++ x :: cs) = ⟨x :: cs, ⟨line, n, n⟩⟩ := by
  have hne : (x == ' ') = false := beq_of_isNameChar (isNameChar_of_isAlphanum hx) (by decide)
  have hblanks : ∀ y ∈ List.replicate n ' ', (y == ' ') = true := by simp
  rw [landing, List.takeWhile_append_of_pos hblanks, List.dropWhile_append_of_pos hblanks]
  simp [hne]

/-- A line that starts with a word in its column. -/
theorem landing_word {key : List Char} (hkey : IsWord key) :
    landing line (List.replicate n ' ' ++ (key ++ cs)) = ⟨key ++ cs, ⟨line, n, n⟩⟩ := by
  obtain ⟨x, xs, rfl, hx⟩ := hkey.head
  exact landing_row hx

theorem after_blank (p : Place) : p.after ' ' = ⟨p.line, p.column + 1, p.bytes + 1⟩ := rfl

/-- A gap that holds a line end goes on through the blanks of the next line, and the scalar ends
there if the line goes on further left than its lines may start. -/
theorem readPlain_gap (h : GoesOn c cs) (hc : c < indent) {more : Nat} :
    readPlain false indent done (.folded more) ⟨line, 0, 0⟩ cs =
      some ⟨String.ofList done.reverse, true, landing line cs⟩ := by
  cases h with
  | ended => rfl
  | @row n x cs hn hx =>
    have hblanks : ∀ m k, readPlain false indent done (.folded more) ⟨line, k, k⟩
        (List.replicate m ' ' ++ x :: cs) =
          readPlain false indent done (.folded more) ⟨line, k + m, k + m⟩ (x :: cs) := by
      intro m
      induction m with
      | zero => exact fun _ => rfl
      | succ m ih =>
        intro k
        rw [List.replicate_succ, List.cons_append, readPlain]
        simp only [isBlank, Gap.addBlank, Gap.isBroken, after_blank]
        rw [show k + (m + 1) = k + 1 + m by omega, ← ih]
        rfl
    have hname := isNameChar_of_isAlphanum hx
    have hlt : n < indent := by omega
    have hblank : isBlank x = false := by
      simp only [isBlank, beq_of_isNameChar hname (show isNameChar ' ' = false by decide),
        beq_of_isNameChar hname (show isNameChar '\t' = false by decide), Bool.or_self]
    have hstops : (Gap.folded more != Gap.empty) = true := rfl
    rw [hblanks n 0, landing_row hx, readPlain]
    simp only [beq_of_isNameChar hname (show isNameChar '\n' = false by decide), hblank, hstops,
      Nat.zero_add, hlt, decide_true, Bool.not_false, Bool.and_true, Bool.true_or,
      Bool.not_true, Bool.false_and, Bool.false_eq_true, if_false, if_true]
    rfl

/-- Name characters and colons are no gap. -/
theorem skipGaps_visible (hx : isNameChar x = true ∨ x = ':') (allowed : Bool) (place : Place) :
    TokenState.skipGaps false allowed false place (x :: cs) = (⟨x :: cs, place⟩, allowed) := by
  rw [TokenState.skipGaps]
  rcases hx with hx | rfl
  · have hne : ∀ y, isNameChar y = false → (x == y) = false := fun y => beq_of_isNameChar hx
    have hmark : isByteMark x = false := by
      have hle := (toNat_of_isNameChar hx).2
      rw [isByteMark, beq_eq_false_iff_ne]
      omega
    simp only [hne '\n' (by decide), hne ' ' (by decide), hne '\t' (by decide),
      hne '#' (by decide), hmark, Bool.false_and, Bool.or_self, Bool.false_eq_true, if_false]
  · rfl

/-- Between two tokens, the blanks at the start of a line are passed over. -/
theorem skipGaps_lineStart (h : GoesOn c cs) :
    TokenState.skipGaps false true false ⟨line, 0, 0⟩ cs = (landing line cs, true) := by
  cases h with
  | ended => rfl
  | @row n x cs hn hx =>
    have hblanks : ∀ m k, TokenState.skipGaps false true false ⟨line, k, k⟩
        (List.replicate m ' ' ++ x :: cs) =
          TokenState.skipGaps false true false ⟨line, k + m, k + m⟩ (x :: cs) := by
      intro m
      induction m with
      | zero => exact fun _ => rfl
      | succ m ih =>
        intro k
        rw [List.replicate_succ, List.cons_append, TokenState.skipGaps]
        rw [show k + (m + 1) = k + 1 + m by omega, ← ih]
        rfl
    rw [hblanks n 0, landing_row hx, Nat.zero_add,
      skipGaps_visible (Or.inl (isNameChar_of_isAlphanum hx))]

theorem skipGaps_landing (h : GoesOn c cs) :
    TokenState.skipGaps false true false (landing line cs).place (landing line cs).rest =
      (landing line cs, true) := by
  cases h with
  | ended => rfl
  | row hn hx => rw [landing_row hx, skipGaps_visible (Or.inl (isNameChar_of_isAlphanum hx))]

theorem GoesOn.column_le (h : GoesOn c cs) (line : Nat) : (landing line cs).place.column ≤ c := by
  cases h with
  | ended => exact Nat.zero_le c
  | row hn hx => rw [landing_row hx]; exact hn

theorem GoesOn.mono {c' : Nat} (h : GoesOn c cs) (hle : c ≤ c') : GoesOn c' cs := by
  cases h with
  | ended => exact .ended
  | row hn hx => exact .row (hn.trans hle) hx

end Landing

/-! ## Steps of the reader -/

namespace TokenState

variable {s s' : TokenState} {source : Source} {T : Array (Option YamlToken)} {indent : Option Nat}
  {outer : List (Option Nat)} {key : Option KeyStart} {allowed : Bool} {c : Char}
  {cs : List Char} {column fuel : Nat}

/-- What is read depends on where the next token starts. -/
theorem readFrom_congr (h : s.advance? = s'.advance?) : readFrom fuel s = readFrom fuel s' := by
  cases fuel with
  | zero => rw [readFrom, readFrom, h]
  | succ fuel => rw [readFrom, readFrom, h]

theorem readFrom_step {t : TokenState} (hadvance : s.advance? = some t)
    (hrest : t.source.rest = c :: cs) (htoken : t.token? c cs = some s') :
    readFrom (fuel + 1) s = readFrom fuel s' := by
  rw [readFrom, hadvance]
  simp only [hrest, htoken]

/-- Counting the closed blocks may start anywhere. -/
theorem unwind_add (column : Option Nat) (closed : Nat) (indent : Option Nat)
    (outer : List (Option Nat)) :
    unwind column closed indent outer =
      ((unwind column 0 indent outer).1, (unwind column 0 indent outer).2.1,
        closed + (unwind column 0 indent outer).2.2) := by
  induction outer generalizing closed indent with
  | nil => cases indent <;> rfl
  | cons next outer ih =>
    cases indent with
    | none => rfl
    | some i =>
      rw [unwind, unwind]
      split_ifs
      · rw [ih (closed + 1), ih (0 + 1)]
        simp [Nat.add_assoc]
      · rfl

/-- No block is to the right of the column: none is closed. -/
theorem closeBlocks_of_le (h : ∀ i ∈ indent, i ≤ column) :
    closeBlocks ⟨source, T, indent, outer, [key], allowed⟩ (some column) =
      ⟨source, T, indent, outer, [key], allowed⟩ := by
  have hunwind : unwind (some column) 0 indent outer = (indent, outer, 0) := by
    cases indent with
    | none => cases outer <;> rfl
    | some i =>
      cases outer with
      | nil => rfl
      | cons next outer =>
        have hnot : ¬ column < i := Nat.not_lt.2 (h i rfl)
        simp [unwind, hnot]
  simp [closeBlocks, inFlow, hunwind]

/-- The innermost block is to the right of the column: it is closed before the others. -/
theorem closeBlocks_of_lt {limit next : Option Nat} {i : Nat} (h : limit.all (· < i) = true) :
    closeBlocks ⟨source, T, some i, next :: outer, [key], allowed⟩ limit =
      closeBlocks ⟨source, T.push (some .blockEnd), next, outer, [key], allowed⟩ limit := by
  have hunwind : unwind limit 0 (some i) (next :: outer) =
      ((unwind limit 0 next outer).1, (unwind limit 0 next outer).2.1,
        1 + (unwind limit 0 next outer).2.2) := by
    rw [unwind, if_pos h, unwind_add]
  simp only [closeBlocks, inFlow, hunwind, Bool.false_eq_true, if_false, TokenState.mk.injEq,
    true_and, and_true]
  rw [Nat.add_comm, Array.replicate_succ', Array.push_eq_append, Array.append_assoc]

/-- Where the next token starts. Outside brackets there is one place where a key may have started,
and it is not given up as long as it may end. -/
theorem advance?_eq {place : Place} {rest : List Char} {allowed' : Bool}
    (hskip : skipGaps false allowed false place rest = (source, allowed'))
    (hkey : key.any (·.isStale source.place) = false) :
    advance? ⟨⟨rest, place⟩, T, indent, outer, [key], allowed⟩ =
      some (closeBlocks ⟨source, T, indent, outer, [key], allowed'⟩
        (some source.place.column)) := by
  have hstale : dropStale? ⟨source, T, indent, outer, [key], allowed'⟩ =
      some ⟨source, T, indent, outer, [key], allowed'⟩ := by
    simp [dropStale?, hkey]
  show (do
    let s ← dropStale? ⟨(skipGaps false allowed false place rest).1, T, indent, outer, [key],
      (skipGaps false allowed false place rest).2⟩
    return s.closeBlocks (some s.source.place.column)) = _
  rw [hskip, hstale]
  rfl

/-- A letter or a digit starts a plain scalar. -/
theorem token?_word (hc : c.isAlphanum = true) :
    token? ⟨source, T, indent, outer, [key], allowed⟩ c cs =
      plain? ⟨source, T, indent, outer, [key], allowed⟩ := by
  have hne : ∀ x, x.isAlphanum = false → (c == x) = false := by
    intro x hx
    rw [beq_eq_false_iff_ne]
    rintro rfl
    rw [hc] at hx
    cases hx
  have hdivider : isDivider (c :: cs) = false := by
    unfold isDivider
    split
    · next heq => cases heq; cases hc
    · next heq => cases heq; cases hc
    · rfl
  have hstarts : startsPlain false (c :: cs) = true := by
    simp only [startsPlain, isIndicator, isFlowMark, isBlank, hne ',' (by decide),
      hne '[' (by decide), hne ']' (by decide), hne '\x7b' (by decide), hne '\x7d' (by decide),
      hne '-' (by decide), hne '?' (by decide), hne ':' (by decide), hne '#' (by decide),
      hne '&' (by decide), hne '*' (by decide), hne '!' (by decide), hne '|' (by decide),
      hne '>' (by decide), hne '\'' (by decide), hne '"' (by decide), hne '%' (by decide),
      hne '@' (by decide), hne '\x60' (by decide), hne ' ' (by decide), hne '\t' (by decide),
      hne '\n' (by decide), Bool.or_self, Bool.not_false, Bool.true_or]
  simp only [token?, inFlow, hdivider, hstarts, hne '%' (by decide), hne '[' (by decide),
    hne '\x7b' (by decide), hne ']' (by decide), hne '\x7d' (by decide), hne ',' (by decide),
    hne '-' (by decide), hne '?' (by decide), hne ':' (by decide), hne '*' (by decide),
    hne '&' (by decide), hne '!' (by decide), hne '|' (by decide), hne '>' (by decide),
    hne '\'' (by decide), hne '"' (by decide), Bool.and_false, Bool.false_and,
    Bool.false_eq_true, if_false, if_true]

/-- A colon that a blank or the end of the line follows is a token of its own, unless it is the
first character of its line. -/
theorem token?_colon (hcolumn : source.place.column ≠ 0) (hrest : parted cs = true) :
    token? ⟨source, T, indent, outer, [key], allowed⟩ ':' cs =
      value? ⟨source, T, indent, outer, [key], allowed⟩ := by
  simp [token?, inFlow, hcolumn, hrest]

/-! ## Keys and values -/

section Entries

variable {line column bytes : Nat} {text : String} {rest : List Char} {broken : Bool}
  {after : Source}

/-- A plain scalar where a key may start leaves two places open before it. -/
theorem plain?_key
    (hread : readPlain false (indent.elim 0 (· + 1)) [] .empty source.place source.rest =
      some ⟨text, broken, after⟩) :
    plain? ⟨source, T, indent, outer, [none], true⟩ =
      some ⟨after, T ++ #[none, none, some (.scalar .plain text)], indent, outer,
        [some ⟨T.size, source.place, indent == some source.place.column⟩], broken⟩ := by
  have htokens : ((T.push none).push none).push (some (.scalar .plain text)) =
      T ++ #[none, none, some (.scalar .plain text)] := by
    apply Array.toList_inj.1
    simp
  cases indent <;>
    simp_all [plain?, markKey?, dropKey?, inFlow, push, moveTo]

theorem plain?_value
    (hread : readPlain false (indent.elim 0 (· + 1)) [] .empty source.place source.rest =
      some ⟨text, broken, after⟩) :
    plain? ⟨source, T, indent, outer, [none], false⟩ =
      some ⟨after, T.push (some (.scalar .plain text)), indent, outer, [none], broken⟩ := by
  cases indent <;> simp_all [plain?, markKey?, inFlow, push, moveTo]

/-- The tokens after a key and its colon. -/
def withKey (T : Array (Option YamlToken)) (opens : Bool) (token : YamlToken) :
    Array (Option YamlToken) :=
  T ++ #[if opens then some .blockMapping else none, some .key, some token, some .value]

/-- A colon fills the places that were left open for its key. -/
theorem value?_key {place : Place} {token : YamlToken} {required : Bool} :
    value? ⟨source, T ++ #[none, none, some token], indent, outer, [some ⟨T.size, place, required⟩],
        allowed⟩ =
      some ⟨source.skip 1, withKey T (indent.all (· < place.column)) token,
        if indent.all (· < place.column) then some place.column else indent,
        if indent.all (· < place.column) then indent :: outer else outer, [none], false⟩ := by
  have hkey : (T ++ #[none, none, some token]).setIfInBounds (T.size + 1) (some .key) =
      T ++ #[none, some .key, some token] := by
    rw [Array.setIfInBounds_append_right (by omega), Nat.add_sub_cancel_left]
    rfl
  have hblock : (T ++ #[none, some .key, some token]).setIfInBounds T.size (some .blockMapping) =
      T ++ #[some .blockMapping, some .key, some token] := by
    rw [Array.setIfInBounds_append_right (by omega), Nat.sub_self]
    rfl
  by_cases hopens : indent.all (· < place.column) = true
  · simp [value?, fillKey, hkey, hblock, opensAt, inFlow, hopens, push, pass, moveTo, withKey]
  · simp [value?, fillKey, hkey, opensAt, inFlow, hopens, push, pass, moveTo, withKey]

/-- A key and its colon: they stand in the column of the innermost block or open one there. -/
theorem readFrom_key (hkey : IsWord text.toList) (hlen : text.toList.length ≤ keyReach)
    (hindent : indent = some column ∨ indent.all (· < column) = true)
    (hrest : parted rest = true) :
    readFrom (fuel + 2)
        ⟨landing line (List.replicate column ' ' ++ (text.toList ++ ':' :: rest)), T, indent, outer,
          [none], true⟩ =
      readFrom fuel
        ⟨⟨rest, ⟨line, column + text.toList.length + 1, column + text.toList.length + 1⟩⟩,
          withKey T (indent.all (· < column)) (.scalar .plain text), some column,
          if indent.all (· < column) then indent :: outer else outer, [none], false⟩ := by
  have hle : ∀ i ∈ indent, i ≤ column := by
    rintro i rfl
    simp at hindent
    omega
  have hopen : (if indent.all (· < column) then some column else indent) = some column := by
    rcases hindent with rfl | h
    · simp
    · rw [if_pos h]
  obtain ⟨c, cs, htext, hc⟩ := hkey.head
  have hadvance : advance?
      ⟨⟨text.toList ++ ':' :: rest, ⟨line, column, column⟩⟩, T, indent, outer, [none], true⟩ =
        some
      ⟨⟨text.toList ++ ':' :: rest, ⟨line, column, column⟩⟩, T, indent, outer, [none], true⟩ := by
    rw [htext, List.cons_append,
      advance?_eq (skipGaps_visible (Or.inl (isNameChar_of_isAlphanum hc)) true _) rfl,
      closeBlocks_of_le hle]
  have hread : readPlain false (indent.elim 0 (· + 1)) [] .empty ⟨line, column, column⟩
      (text.toList ++ ':' :: rest) = some ⟨text, false, ⟨':' :: rest,
        ⟨line, column + text.toList.length, column + text.toList.length⟩⟩⟩ := by
    rw [readPlain_append hkey.chars, readPlain_colon hrest, along_of_isNameChar hkey.chars]
    simp
  have hstale : (some (⟨T.size, ⟨line, column, column⟩, indent == some column⟩ : KeyStart)).any
      (·.isStale ⟨line, column + text.toList.length, column + text.toList.length⟩) = false := by
    simp [KeyStart.isStale]
    omega
  have hle' : ∀ i ∈ indent, i ≤ column + text.toList.length := fun i hi =>
    (hle i hi).trans (Nat.le_add_right _ _)
  have hcolumn : column + text.toList.length ≠ 0 := by
    rw [htext, List.length_cons]
    omega
  rw [landing_word hkey,
    readFrom_step hadvance (by rw [htext]; rfl) ((token?_word hc).trans (plain?_key hread)),
    readFrom_step ((advance?_eq (skipGaps_visible (Or.inr rfl) false _) hstale).trans
      (congrArg some (closeBlocks_of_le hle'))) rfl
        ((token?_colon hcolumn hrest).trans value?_key), hopen]
  rfl

/-- A value on the line of its key. -/
theorem readFrom_value {i : Nat} (hvalue : IsWord text.toList) (hcolumn : i ≤ column)
    (hrest : GoesOn i rest) :
    readFrom (fuel + 1)
        ⟨⟨' ' :: (text.toList ++ '\n' :: rest), ⟨line, column, bytes⟩⟩, T, some i, outer, [none],
          false⟩ =
      readFrom fuel
        ⟨landing (line + 1) rest, T.push (some (.scalar .plain text)), some i, outer, [none],
          true⟩ := by
  obtain ⟨c, cs, htext, hc⟩ := hvalue.head
  have hskip : skipGaps false false false ⟨line, column, bytes⟩
      (' ' :: (text.toList ++ '\n' :: rest)) =
        (⟨text.toList ++ '\n' :: rest, ⟨line, column + 1, bytes + 1⟩⟩, false) := by
    rw [htext, List.cons_append, skipGaps]
    exact skipGaps_visible (Or.inl (isNameChar_of_isAlphanum hc)) false _
  have hread : readPlain false (i + 1) [] .empty ⟨line, column + 1, bytes + 1⟩
      (text.toList ++ '\n' :: rest) = some ⟨text, true, landing (line + 1) rest⟩ := by
    rw [readPlain_append hvalue.chars, readPlain]
    refine (readPlain_gap hrest (Nat.lt_succ_self i)).trans ?_
    simp [along_of_isNameChar hvalue.chars]
  have hindent : ∀ j ∈ some i, j ≤ column + 1 := fun j hj => by
    cases hj
    omega
  exact readFrom_step ((advance?_eq hskip rfl).trans (congrArg some (closeBlocks_of_le hindent)))
    (by rw [htext]; rfl) ((token?_word hc).trans (plain?_value hread))

/-- The line of a key may end behind its colon. -/
theorem readFrom_newline {i : Nat} (hrest : GoesOn i rest) :
    readFrom fuel ⟨⟨'\n' :: rest, ⟨line, column, bytes⟩⟩, T, indent, outer, [none], false⟩ =
      readFrom fuel ⟨landing (line + 1) rest, T, indent, outer, [none], true⟩ := by
  have hskip : skipGaps false false false ⟨line, column, bytes⟩ ('\n' :: rest) =
      (landing (line + 1) rest, true) := by
    rw [skipGaps]
    exact skipGaps_lineStart hrest
  exact readFrom_congr ((advance?_eq hskip rfl).trans (advance?_eq (skipGaps_landing hrest) rfl).symm)

/-- A block ends where a line starts further left. -/
theorem readFrom_dedent {i j : Nat} {next : Option Nat} (hrest : GoesOn j rest) (hlt : j < i) :
    readFrom fuel ⟨landing line rest, T, some i, next :: outer, [none], true⟩ =
      readFrom fuel ⟨landing line rest, T.push (some .blockEnd), next, outer, [none], true⟩ := by
  have hcolumn : (some (landing line rest).place.column).all (· < i) = true := by
    have hle := hrest.column_le line
    simp
    omega
  refine readFrom_congr ?_
  rw [advance?_eq (skipGaps_landing hrest) rfl, advance?_eq (skipGaps_landing hrest) rfl,
    closeBlocks_of_lt hcolumn]

/-- At the end of the text the outermost block ends. -/
theorem readFrom_end :
    readFrom fuel ⟨landing line [], T, some 0, [none], [none], true⟩ =
      some (T.push (some .blockEnd)) := by
  have hfinish : finish? ⟨landing line [], T, some 0, [none], [none], true⟩ =
      some ⟨landing line [], T.push (some .blockEnd), none, [], [none], true⟩ := by
    rw [finish?, closeBlocks_of_lt rfl]
    simp [closeBlocks, inFlow, unwind, dropKey?]
  have hadvance : advance? ⟨landing line [], T, some 0, [none], [none], true⟩ =
      some ⟨landing line [], T, some 0, [none], [none], true⟩ := by
    rw [advance?_eq (skipGaps_landing (.ended (c := 0))) rfl, closeBlocks_of_le (by simp)]
  have hrest : (landing line []).rest = [] := rfl
  cases fuel with
  | zero => rw [readFrom, hadvance]; simp [hrest, hfinish]
  | succ fuel => rw [readFrom, hadvance]; simp [hrest, hfinish]

end Entries

end TokenState

end QubitAllocation.Yaml
