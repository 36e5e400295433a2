import QubitAllocation.Proofs.Yaml.Lines
import QubitAllocation.Yaml.Reader

/-!
# Rows of a block mapping

Nested block mappings of words: their text, the tokens of the text, and the node that the tokens
make. Reading the text gives the node (`Rows.read?_text`).
-/

set_option autoImplicit false

namespace QubitAllocation.Yaml

/-- The rows of a block mapping: a key with a plain value, or one with a block of its own. -/
inductive Rows
  | nil
  | word (key value : String) (rest : Rows)
  | group (key : String) (inner rest : Rows)

namespace Rows

/-- Keys and values are words, keys are short enough, and no block is empty. -/
def Plain : Rows → Prop
  | nil => True
  | word key value rest =>
    IsWord key.toList ∧ key.toList.length ≤ keyReach ∧ IsWord value.toList ∧ rest.Plain
  | group key inner rest =>
    IsWord key.toList ∧ key.toList.length ≤ keyReach ∧ inner ≠ nil ∧ inner.Plain ∧ rest.Plain

/-- The text of the rows at a column. -/
def text (column : Nat) : Rows → List Char
  | nil => []
  | word key value rest =>
    List.replicate column ' ' ++
      (key.toList ++ ':' :: ' ' :: (value.toList ++ '\n' :: rest.text column))
  | group key inner rest =>
    List.replicate column ' ' ++
      (key.toList ++ ':' :: '\n' :: (inner.text (column + 2) ++ rest.text column))

/-- The tokens of the rows. -/
def tokens : Rows → List YamlToken
  | nil => []
  | word key value rest =>
    [.key, .scalar .plain key, .value, .scalar .plain value] ++ rest.tokens
  | group key inner rest =>
    [.key, .scalar .plain key, .value, .blockMapping] ++ inner.tokens ++ .blockEnd :: rest.tokens

/-- The entries of the mapping. -/
def entries : Rows → List (YamlNode × YamlNode)
  | nil => []
  | word key value rest =>
    (.scalar .plain none key, .scalar .plain none value) :: rest.entries
  | group key inner rest => (.scalar .plain none key, .mapping inner.entries) :: rest.entries

/-- How many tokens of the rows have characters of their own. -/
def steps : Rows → Nat
  | nil => 0
  | word _ _ rest => rest.steps + 3
  | group _ inner rest => inner.steps + rest.steps + 2

variable {rows : Rows} {column : Nat} {tail : List Char}

theorem goesOn_text (hrows : rows.Plain) (htail : GoesOn column tail) :
    GoesOn column (rows.text column ++ tail) := by
  cases rows with
  | nil => exact htail
  | word key value rest =>
    obtain ⟨x, xs, hkey, hx⟩ := hrows.1.head
    rw [text, List.append_assoc, hkey]
    exact .row le_rfl hx
  | group key inner rest =>
    obtain ⟨x, xs, hkey, hx⟩ := hrows.1.head
    rw [text, List.append_assoc, hkey]
    exact .row le_rfl hx

/-- The tokens so far, without the places left open. -/
def found (T : Array (Option YamlToken)) : List YamlToken := T.toList.filterMap id

theorem found_push (T : Array (Option YamlToken)) (token : YamlToken) :
    found (T.push (some token)) = found T ++ [token] := by
  simp [found]

theorem found_withKey (T : Array (Option YamlToken)) (opens : Bool) (token : YamlToken) :
    found (TokenState.withKey T opens token) =
      found T ++ ((if opens then [.blockMapping] else []) ++ [.key, token, .value]) := by
  cases opens <;> simp [found, TokenState.withKey]

/-- The reader takes rows one by one. The first key of a block further right opens it, and after the
rows the block is open still. -/
theorem readFrom_text {indent : Option Nat} (hrows : rows.Plain) (htail : GoesOn column tail)
    (hindent : indent = some column ∨ rows ≠ nil ∧ indent.all (· < column) = true)
    (line : Nat) (T : Array (Option YamlToken)) (outer : List (Option Nat)) (fuel : Nat) :
    ∃ line' T', TokenState.readFrom (fuel + rows.steps)
        ⟨landing line (rows.text column ++ tail), T, indent, outer, [none], true⟩ =
      TokenState.readFrom fuel ⟨landing line' tail, T', some column,
        if indent.all (· < column) then indent :: outer else outer, [none], true⟩ ∧
      found T' = found T ++
        ((if indent.all (· < column) then [.blockMapping] else []) ++ rows.tokens) := by
  induction rows generalizing column tail indent line T outer fuel with
  | nil =>
    obtain rfl : indent = some column := by simpa using hindent
    exact ⟨line, T, by simp [text, steps], by simp [tokens]⟩
  | word key value rest ih =>
    obtain ⟨hkey, hlen, hvalue, hrest⟩ := hrows
    obtain ⟨line', T', hread, hfound⟩ := ih hrest htail (Or.inl rfl) (line + 1)
      ((TokenState.withKey T (indent.all (· < column)) (.scalar .plain key)).push
        (some (.scalar .plain value)))
      (if indent.all (· < column) then indent :: outer else outer) fuel
    have hsteps : fuel + (word key value rest).steps = fuel + rest.steps + 1 + 2 := rfl
    refine ⟨line', T', ?_, ?_⟩
    · simp only [text, List.append_assoc, List.cons_append]
      rw [hsteps, TokenState.readFrom_key hkey hlen (hindent.imp_right And.right) rfl,
        TokenState.readFrom_value hvalue (by omega) (goesOn_text hrest htail), hread]
      simp
    · rw [hfound, found_push, found_withKey]
      simp [tokens]
  | group key inner rest ihInner ihRest =>
    obtain ⟨hkey, hlen, hne, hinner, hrest⟩ := hrows
    have hgoes := goesOn_text hrest htail
    have hdeeper : (some column).all (· < column + 2) = true := by simp
    obtain ⟨line₁, T₁, hread₁, hfound₁⟩ := ihInner hinner (hgoes.mono (Nat.le_add_right column 2))
      (Or.inr ⟨hne, hdeeper⟩) (line + 1)
      (TokenState.withKey T (indent.all (· < column)) (.scalar .plain key))
      (if indent.all (· < column) then indent :: outer else outer) (fuel + rest.steps)
    obtain ⟨line', T', hread, hfound⟩ := ihRest hrest htail (Or.inl rfl) line₁
      (T₁.push (some .blockEnd)) (if indent.all (· < column) then indent :: outer else outer) fuel
    have hsteps : fuel + (group key inner rest).steps = fuel + rest.steps + inner.steps + 2 := by
      simp only [steps]
      omega
    have hnewline := goesOn_text hinner (hgoes.mono (Nat.le_add_right column 2))
    refine ⟨line', T', ?_, ?_⟩
    · simp only [text, List.append_assoc, List.cons_append]
      rw [hsteps, TokenState.readFrom_key hkey hlen (hindent.imp_right And.right) rfl,
        TokenState.readFrom_newline hnewline, hread₁, if_pos hdeeper,
        TokenState.readFrom_dedent hgoes (by omega), hread]
      simp
    · rw [hfound, found_push, hfound₁, found_withKey, if_pos hdeeper]
      simp [tokens]

/-! ## Whole texts -/

theorem steps_le_length (hrows : rows.Plain) (column : Nat) :
    rows.steps ≤ (rows.text column).length := by
  induction rows generalizing column with
  | nil => exact Nat.zero_le _
  | word key value rest ih =>
    obtain ⟨x, xs, hkey, -⟩ := hrows.1.head
    have hle := ih hrows.2.2.2 column
    simp only [steps, text, List.length_append, List.length_cons, hkey]
    omega
  | group key inner rest ihInner ihRest =>
    obtain ⟨x, xs, hkey, -⟩ := hrows.1.head
    have hinner := ihInner hrows.2.2.2.1 (column + 2)
    have hrest := ihRest hrows.2.2.2.2 column
    simp only [steps, text, List.length_append, List.length_cons, hkey]
    omega

/-- The characters of rows: blanks, line feeds, colons and those of names. -/
theorem mem_text (hrows : rows.Plain) {x : Char} (hx : x ∈ rows.text column) :
    x = ' ' ∨ x = '\n' ∨ x = ':' ∨ isNameChar x = true := by
  induction rows generalizing column with
  | nil => cases hx
  | word key value rest ih =>
    obtain ⟨hkey, -, hvalue, hrest⟩ := hrows
    simp only [text, List.mem_append, List.mem_cons, List.mem_replicate] at hx
    rcases hx with ⟨-, rfl⟩ | hx | rfl | rfl | hx | rfl | hx
    · exact .inl rfl
    · exact .inr (.inr (.inr (hkey.chars x hx)))
    · exact .inr (.inr (.inl rfl))
    · exact .inl rfl
    · exact .inr (.inr (.inr (hvalue.chars x hx)))
    · exact .inr (.inl rfl)
    · exact ih hrest hx
  | group key inner rest ihInner ihRest =>
    obtain ⟨hkey, -, -, hinner, hrest⟩ := hrows
    simp only [text, List.mem_append, List.mem_cons, List.mem_replicate] at hx
    rcases hx with ⟨-, rfl⟩ | hx | rfl | rfl | hx | hx
    · exact .inl rfl
    · exact .inr (.inr (.inr (hkey.chars x hx)))
    · exact .inr (.inr (.inl rfl))
    · exact .inr (.inl rfl)
    · exact ihInner hinner hx
    · exact ihRest hrest hx

theorem isAllowed_of_mem_text (hrows : rows.Plain) {x : Char} (hx : x ∈ rows.text column) :
    isAllowed x = true := by
  rcases mem_text hrows hx with rfl | rfl | rfl | hname
  · rfl
  · rfl
  · rfl
  · have hbounds := toNat_of_isNameChar hname
    simp [isAllowed]
    omega

theorem lineEnd_of_mem_text (hrows : rows.Plain) {x : Char} (hx : x ∈ rows.text column) :
    x = '\n' ∨ isLineEnd x = false := by
  rcases mem_text hrows hx with rfl | rfl | rfl | hname
  · exact .inr rfl
  · exact .inl rfl
  · exact .inr rfl
  · have hbounds := toNat_of_isNameChar hname
    refine .inr ?_
    simp [isLineEnd]
    omega

/-- Rows in the first column are a block of their own. -/
theorem tokens?_text (hrows : rows.Plain) (hne : rows ≠ nil) :
    tokens? (String.ofList (rows.text 0)) = some (.blockMapping :: (rows.tokens ++ [.blockEnd])) := by
  have hallowed : (rows.text 0).all isAllowed = true := by
    rw [List.all_eq_true]
    exact fun x => isAllowed_of_mem_text hrows
  have hstart : TokenState.start (rows.text 0) =
      ⟨landing 0 (rows.text 0 ++ []), #[], none, [], [none], true⟩ := by
    rw [List.append_nil]
    cases rows with
    | nil => exact absurd rfl hne
    | word key value rest => rw [text, landing_word hrows.1]; rfl
    | group key inner rest => rw [text, landing_word hrows.1]; rfl
  obtain ⟨fuel, hfuel⟩ := Nat.exists_eq_add_of_le (steps_le_length hrows 0)
  have hnone : (none : Option Nat).all (· < 0) = true := rfl
  obtain ⟨line, T, hread, hfound⟩ :=
    readFrom_text hrows .ended (Or.inr ⟨hne, hnone⟩) 0 #[] [] fuel
  have hends : normalEnds [] (rows.text 0) = rows.text 0 :=
    normalEnds_eq fun x => lineEnd_of_mem_text hrows
  simp only [tokens?, String.toList_ofList, hallowed, if_true, hends]
  rw [hstart, hfuel, Nat.add_comm, hread]
  refine (congrArg _ TokenState.readFrom_end).trans ?_
  refine congrArg some ((found_push T .blockEnd).trans ?_)
  rw [hfound]
  rfl

/-! ## From tokens to nodes -/

/-- How many steps the reader of nodes takes for the rows. -/
def moves : Rows → Nat
  | nil => 0
  | word _ _ rest => rest.moves + 6
  | group _ inner rest => inner.moves + rest.moves + 7

theorem moves_le (rows : Rows) : rows.moves ≤ 8 * rows.tokens.length := by
  induction rows with
  | nil => exact le_rfl
  | word key value rest ih =>
    simp only [moves, tokens, List.length_append, List.length_cons, List.length_nil]
    omega
  | group key inner rest ihInner ihRest =>
    simp only [moves, tokens, List.length_append, List.length_cons, List.length_nil]
    omega

section Nodes

variable {done : List (YamlNode × YamlNode)} {frames : List YamlFrame} {token : YamlToken}
  {following : List YamlToken} {tags : List (String × Option String)} {names : List (String × Nat)}
  {marks : Nat} {named : List (NameMark × YamlNode)} {key : String} {fuel : Nat}

/-- A key. -/
theorem run?_key :
    YamlState.run? (fuel + 3) ⟨.next, .blockKey ⟨none, done⟩ :: frames,
        .key :: .scalar .plain key :: following, tags, names, marks, named⟩ =
      YamlState.run? fuel ⟨.next, .blockValue ⟨none, done⟩ (.scalar .plain none key) :: frames,
        following, tags, names, marks, named⟩ := rfl

/-- The value of a key, unless it is absent. -/
theorem run?_colon {node : YamlNode}
    (htoken : [YamlToken.key, .value, .blockEnd].contains token = false) :
    YamlState.run? (fuel + 1) ⟨.next, .blockValue ⟨none, done⟩ node :: frames,
        .value :: token :: following, tags, names, marks, named⟩ =
      YamlState.run? fuel ⟨.node true true, .blockValue ⟨none, done⟩ node :: frames,
        token :: following, tags, names, marks, named⟩ := by
  simp only [YamlState.run?, YamlState.step?, YamlState.continue?, YamlState.blockNode,
    YamlState.drop, YamlState.go, List.drop_succ_cons, List.drop_zero, htoken, Bool.false_eq_true,
    if_false]

/-- A value that is a word completes an entry. -/
theorem run?_value {node : YamlNode} {value : String} :
    YamlState.run? (fuel + 2) ⟨.node true true, .blockValue ⟨none, done⟩ node :: frames,
        .scalar .plain value :: following, tags, names, marks, named⟩ =
      YamlState.run? fuel ⟨.next,
        .blockKey ⟨none, (node, .scalar .plain none value) :: done⟩ :: frames, following, tags,
        names, marks, named⟩ := rfl

/-- A block begins. -/
theorem run?_open {indentless : Bool} :
    YamlState.run? (fuel + 1) ⟨.node true indentless, frames, .blockMapping :: following, tags,
        names, marks, named⟩ =
      YamlState.run? fuel ⟨.next, .blockKey ⟨none, []⟩ :: frames, following, tags, names, marks,
        named⟩ := by
  cases indentless <;> rfl

/-- A block ends. -/
theorem run?_close :
    YamlState.run? (fuel + 1) ⟨.next, .blockKey ⟨none, done⟩ :: frames, .blockEnd :: following,
        tags, names, marks, named⟩ =
      YamlState.run? fuel ⟨.built (.mapping done.reverse), frames, following, tags, names, marks,
        named⟩ := rfl

/-- A node completes an entry. -/
theorem run?_built {key node : YamlNode} :
    YamlState.run? (fuel + 1) ⟨.built node, .blockValue ⟨none, done⟩ key :: frames, following,
        tags, names, marks, named⟩ =
      YamlState.run? fuel ⟨.next, .blockKey ⟨none, (key, node) :: done⟩ :: frames, following, tags,
        names, marks, named⟩ := rfl

/-- The reader of nodes takes the rows into the block that is open. -/
theorem run?_tokens (rows : Rows) :
    YamlState.run? (fuel + rows.moves) ⟨.next, .blockKey ⟨none, done⟩ :: frames,
        rows.tokens ++ following, tags, names, marks, named⟩ =
      YamlState.run? fuel ⟨.next, .blockKey ⟨none, rows.entries.reverse ++ done⟩ :: frames,
        following, tags, names, marks, named⟩ := by
  induction rows generalizing done frames following fuel with
  | nil => rfl
  | word key value rest ih =>
    have hmoves : fuel + (word key value rest).moves = fuel + rest.moves + 2 + 1 + 3 := rfl
    simp only [tokens, entries, List.append_assoc, List.cons_append, List.nil_append,
      List.reverse_cons]
    rw [hmoves, run?_key, run?_colon rfl, run?_value, ih]
  | group key inner rest ihInner ihRest =>
    have hmoves : fuel + (group key inner rest).moves =
        fuel + rest.moves + 1 + 1 + inner.moves + 1 + 1 + 3 := by
      simp only [moves]
      omega
    simp only [tokens, entries, List.append_assoc, List.cons_append, List.nil_append,
      List.reverse_cons]
    rw [hmoves, run?_key, run?_colon rfl, run?_open, ihInner, run?_close, run?_built, ihRest]
    simp

end Nodes

/-- The text of rows holds one document, the mapping of their entries. -/
theorem read?_text (hrows : rows.Plain) (hne : rows ≠ nil) :
    YamlDocument.read? (String.ofList (rows.text 0)) = some ⟨.mapping rows.entries, []⟩ := by
  obtain ⟨fuel, hfuel⟩ : ∃ fuel, 8 * (YamlToken.blockMapping ::
      (rows.tokens ++ [.blockEnd])).length + 8 = fuel + 1 + 1 + rows.moves + 1 := by
    have hle := rows.moves_le
    refine ⟨8 * rows.tokens.length - rows.moves + 21, ?_⟩
    simp only [List.length_cons, List.length_append, List.length_nil]
    omega
  have hrun : YamlState.run? (8 * (YamlToken.blockMapping ::
      (rows.tokens ++ [.blockEnd])).length + 8) ⟨.node true false, [], .blockMapping ::
      (rows.tokens ++ [.blockEnd]), YamlDocument.commonTags, [], 0, []⟩ =
        some (.mapping rows.entries, ⟨.built (.mapping rows.entries), [], [],
          YamlDocument.commonTags, [], 0, []⟩) := by
    rw [hfuel, run?_open, run?_tokens, run?_close, List.append_nil, List.reverse_reverse]
    rfl
  rw [YamlDocument.read?, tokens?_text hrows hne]
  simp only [Option.bind_some, YamlDocument.ofTokens?, YamlDocument.first?, YamlDocument.body?,
    List.nil_append, hrun]
  rfl

end Rows

/-! ## Rows from lists -/

/-- What a key has: a word, or rows of its own. -/
inductive Value
  | word (text : String)
  | block (rows : Rows)

namespace Value

/-- The node of a value. -/
def node : Value → YamlNode
  | word text => .scalar .plain none text
  | block rows => .mapping rows.entries

/-- The text of a value and its key at a column. -/
def line (column : Nat) (key : String) : Value → List Char
  | word text => List.replicate column ' ' ++ (key.toList ++ ':' :: ' ' :: (text.toList ++ ['\n']))
  | block rows => List.replicate column ' ' ++ (key.toList ++ ':' :: '\n' :: rows.text (column + 2))

/-- A value that reads back. -/
def Plain : Value → Prop
  | word text => IsWord text.toList
  | block rows => rows ≠ .nil ∧ rows.Plain

end Value

namespace Rows

/-- The rows of keys and their values. -/
def ofList : List (String × Value) → Rows
  | [] => nil
  | (key, .word text) :: fields => word key text (ofList fields)
  | (key, .block rows) :: fields => group key rows (ofList fields)

theorem entries_ofList (fields : List (String × Value)) :
    (ofList fields).entries =
      fields.map fun field => (.scalar .plain none field.1, field.2.node) := by
  induction fields with
  | nil => rfl
  | cons field fields ih =>
    obtain ⟨key, text | rows⟩ := field
    · rw [ofList, entries, ih, List.map_cons]
      rfl
    · rw [ofList, entries, ih, List.map_cons]
      rfl

theorem text_ofList (column : Nat) (fields : List (String × Value)) :
    (ofList fields).text column = fields.flatMap fun field => field.2.line column field.1 := by
  induction fields with
  | nil => rfl
  | cons field fields ih =>
    obtain ⟨key, value | rows⟩ := field
    · rw [ofList, text, ih, List.flatMap_cons]
      simp [Value.line]
    · rw [ofList, text, ih, List.flatMap_cons]
      simp [Value.line]

theorem plain_ofList {fields : List (String × Value)}
    (h : ∀ field ∈ fields, IsWord field.1.toList ∧ field.1.toList.length ≤ keyReach ∧
      field.2.Plain) : (ofList fields).Plain := by
  induction fields with
  | nil => trivial
  | cons field fields ih =>
    rw [List.forall_mem_cons] at h
    obtain ⟨key, text | rows⟩ := field
    · exact ⟨h.1.1, h.1.2.1, h.1.2.2, ih h.2⟩
    · exact ⟨h.1.1, h.1.2.1, h.1.2.2.1, h.1.2.2.2, ih h.2⟩

theorem ofList_ne_nil {fields : List (String × Value)} (h : fields ≠ []) : ofList fields ≠ nil := by
  cases fields with
  | nil => exact absurd rfl h
  | cons field fields =>
    obtain ⟨key, text | rows⟩ := field
    · exact Rows.noConfusion
    · exact Rows.noConfusion

end Rows

end QubitAllocation.Yaml
