import QubitAllocation.Json.Reader
import QubitAllocation.Proofs.Json.Token

/-!
# Documents and their texts

A plain document has whole texts and natural numbers in it (`JsonValue.Plain`). Its tokens in order
are `JsonValue.tokens`, and the reader gets the document back from them: wherever a value is due, it
takes the tokens of the value and delivers the value (`JsonValue.Plain.taken`).

The two ways of writing a document differ in blanks only. A piece of text (`JsonToken.Piece`) spells
its tokens whatever follows it, and members between brackets make a piece if each member is one
(`JsonToken.piece_enclosed`), with blanks at the places where either way has them. So a document
written without blanks or with one member to a line is read back (`JsonValue.Plain.read?_compact`,
`JsonValue.Plain.read?_pretty`).
-/

set_option autoImplicit false

namespace QubitAllocation

namespace JsonValue

/-! ## The tokens of a document -/

mutual

/-- The tokens of a document in order. -/
def tokens : JsonValue → List JsonToken
  | .null => [.null]
  | .bool b => [.bool b]
  | .number n => [.number n]
  | .string content => [.string content]
  | .array items => .openArray :: (List.intercalate [.comma] (itemTokens items) ++ [.closeArray])
  | .object fields =>
    .openObject :: (List.intercalate [.comma] (fieldTokens fields) ++ [.closeObject])

/-- The tokens of each item of an array. -/
def itemTokens : List JsonValue → List (List JsonToken)
  | [] => []
  | v :: rest => tokens v :: itemTokens rest

/-- The tokens of each field of an object. -/
def fieldTokens : List (Option String × JsonValue) → List (List JsonToken)
  | [] => []
  | (key, v) :: rest => (.string key :: .colon :: tokens v) :: fieldTokens rest

end

/-- A document of whole texts and natural numbers. -/
inductive Plain : JsonValue → Prop
  | null : Plain .null
  | bool (b : Bool) : Plain (.bool b)
  | nat (n : Nat) : Plain (.number (.ofNat n))
  | text (s : String) : Plain (.string (some s))
  | array {items : List JsonValue} : (∀ v ∈ items, Plain v) → Plain (.array items)
  | object {fields : List (Option String × JsonValue)} :
      (∀ field ∈ fields, field.1.isSome = true) → (∀ field ∈ fields, Plain field.2) →
      Plain (.object fields)

theorem itemTokens_eq_map (items : List JsonValue) : itemTokens items = items.map tokens := by
  induction items with
  | nil => rw [itemTokens, List.map_nil]
  | cons v items ih => rw [itemTokens, List.map_cons, ih]

theorem fieldTokens_eq_map (fields : List (Option String × JsonValue)) :
    fieldTokens fields = fields.map fun field => .string field.1 :: .colon :: field.2.tokens := by
  induction fields with
  | nil => rw [fieldTokens, List.map_nil]
  | cons field fields ih => rw [fieldTokens, List.map_cons, ih]

theorem exists_tokens (v : JsonValue) : ∃ t ts, v.tokens = t :: ts ∧ t ≠ .closeArray := by
  cases v
  all_goals
    rw [tokens]
    exact ⟨_, _, rfl, by simp⟩

/-! ## Reading tokens -/

section Reading

open JsonState

variable {v : JsonValue} {items : List JsonValue} {fields : List (Option String × JsonValue)}
  {frames : List JsonFrame} {more : List JsonToken}

/-- The reader takes the tokens of the value for it wherever a value is due. -/
def Taken (v : JsonValue) : Prop :=
  ∀ frames more, run? ⟨.value, frames⟩ (v.tokens ++ more) = run? (deliver v frames) more

/-- The first item of an array is read like the others. -/
theorem run?_valueOrEnd {t : JsonToken} (ht : t ≠ .closeArray) :
    run? ⟨.valueOrEnd, frames⟩ (t :: more) = run? ⟨.value, .array [] :: frames⟩ (t :: more) := by
  have hstep : step? ⟨.valueOrEnd, frames⟩ t = step? ⟨.value, .array [] :: frames⟩ t := by
    rw [step?, step?]
    exact ht
  rw [run?, hstep, run?]

theorem run?_items (done : List JsonValue) (frames : List JsonFrame) (more : List JsonToken)
    (hv : v.Taken) (hitems : ∀ w ∈ items, w.Taken) :
    run? ⟨.value, .array done :: frames⟩
        (List.intercalate [.comma] (itemTokens (v :: items)) ++ .closeArray :: more) =
      run? (deliver (.array (done.reverse ++ v :: items)) frames) more := by
  induction items generalizing v done with
  | nil =>
    rw [itemTokens, itemTokens, List.intercalate_singleton, hv]
    show run? (deliver (.array (v :: done).reverse) frames) more = _
    rw [List.reverse_cons]
  | cons w items ih =>
    rw [List.forall_mem_cons] at hitems
    rw [itemTokens, itemTokens, List.intercalate_cons_cons, ← itemTokens, List.append_assoc,
      List.append_assoc, hv, List.singleton_append]
    -- after the comma the next value is due
    show run? ⟨.value, .array (v :: done) :: frames⟩ _ = _
    rw [ih _ hitems.1 hitems.2, List.reverse_cons, List.append_assoc, List.singleton_append]

theorem run?_field (done : List (Option String × JsonValue)) (key : Option String)
    (hv : v.Taken) :
    run? ⟨.key done, frames⟩ (.string key :: .colon :: v.tokens ++ more) =
      run? ⟨.afterField ((key, v) :: done), frames⟩ more :=
  hv (.object done key :: frames) more

theorem run?_fields (done : List (Option String × JsonValue)) (key : Option String)
    (frames : List JsonFrame) (more : List JsonToken) (hv : v.Taken)
    (hfields : ∀ field ∈ fields, field.2.Taken) :
    run? ⟨.key done, frames⟩
        (List.intercalate [.comma] (fieldTokens ((key, v) :: fields)) ++ .closeObject :: more) =
      run? (deliver (.object (done.reverse ++ (key, v) :: fields)) frames) more := by
  induction fields generalizing key v done with
  | nil =>
    rw [fieldTokens, fieldTokens, List.intercalate_singleton, run?_field done key hv]
    show run? (deliver (.object ((key, v) :: done).reverse) frames) more = _
    rw [List.reverse_cons]
  | cons field fields ih =>
    obtain ⟨key', w⟩ := field
    rw [List.forall_mem_cons] at hfields
    rw [fieldTokens, fieldTokens, List.intercalate_cons_cons, ← fieldTokens, List.append_assoc,
      List.append_assoc, run?_field done key hv, List.singleton_append]
    show run? ⟨.key ((key, v) :: done), frames⟩ _ = _
    rw [ih _ key' hfields.1 hfields.2, List.reverse_cons, List.append_assoc, List.singleton_append]

/-- **The reader takes the tokens of a document for the document.** -/
theorem Plain.taken (h : Plain v) : v.Taken := by
  induction h with
  | @array items _ ih =>
    intro frames more
    rw [tokens, List.cons_append, List.append_assoc, List.singleton_append]
    show run? ⟨.valueOrEnd, frames⟩ _ = _
    cases items with
    | nil => rfl
    | cons v items =>
      rw [List.forall_mem_cons] at ih
      -- the first token decides that the array does not end at once
      obtain ⟨t, ts, hts, ht⟩ := v.exists_tokens
      have hall := run?_items [] frames more ih.1 ih.2
      rw [itemTokens, hts, List.intercalate_cons_cons_left, List.cons_append] at hall ⊢
      rw [run?_valueOrEnd ht, hall]
      rfl
  | @object fields _ _ ih =>
    intro frames more
    rw [tokens, List.cons_append, List.append_assoc, List.singleton_append]
    show run? ⟨.keyOrEnd, frames⟩ _ = _
    cases fields with
    | nil => rfl
    | cons field fields =>
      obtain ⟨key, v⟩ := field
      rw [List.forall_mem_cons] at ih
      have hall := run?_fields [] key frames more ih.1 ih.2
      rw [fieldTokens, List.intercalate_cons_cons_left] at hall ⊢
      exact hall
  | _ => exact fun frames more => rfl

end Reading

end JsonValue

/-! ## Pieces of text -/

namespace JsonToken

open JsonValue

variable {t : JsonToken} {ts : List JsonToken} {cs gap gap' rest : List Char}
  {pieces : List (List Char)} {tokenLists : List (List JsonToken)}

/-- The characters spell the tokens, whatever text follows at which a number ends. -/
def Piece (cs : List Char) (ts : List JsonToken) : Prop :=
  ∀ rest more, Closes rest → Spells rest more → Spells (cs ++ rest) (ts ++ more)

/-- The tokens of a pair of brackets and their characters. -/
inductive Bracket : JsonToken → JsonToken → Char → Char → Prop
  | array : Bracket .openArray .closeArray '[' ']'
  | object : Bracket .openObject .closeObject '\x7b' '\x7d'

theorem piece_lexeme (h : Lexeme t cs) : Piece cs [t] :=
  fun _ _ hcloses hrest => .token h (fun _ _ => hcloses) hrest

theorem closes_gap (hgap : ∀ c ∈ gap, isBlank c = true) (hrest : Closes rest) :
    Closes (gap ++ rest) := by
  cases gap with
  | nil => exact hrest
  | cons c gap =>
    have hc : isBlank c = true := hgap c List.mem_cons_self
    simp only [isBlank, Bool.or_eq_true, beq_iff_eq] at hc
    rcases hc with ((rfl | rfl) | rfl) | rfl
    all_goals exact closes_cons rfl (by decide) (by decide) (by decide)

/-- Pieces with commas between them, and blanks after each comma. -/
theorem spells_members (hgap : ∀ c ∈ gap, isBlank c = true)
    (hpieces : List.Forall₂ Piece pieces tokenLists) (hcloses : Closes rest)
    (hrest : Spells rest ts) :
    Spells (joinWith (',' :: gap) pieces ++ rest)
      (List.intercalate [.comma] tokenLists ++ ts) := by
  induction hpieces with
  | nil => exact hrest
  | @cons piece tokens pieces tokenLists hpiece hpieces ih =>
    cases hpieces with
    | nil =>
      rw [joinWith, List.intercalate_singleton]
      exact hpiece _ _ hcloses hrest
    | cons hnext hlater =>
      rw [joinWith, List.intercalate_cons_cons, List.append_assoc, List.append_assoc,
        List.append_assoc, List.append_assoc]
      · apply hpiece
        · -- the comma ends a number that may stand before it
          exact closes_cons rfl (by decide) (by decide) (by decide)
        · apply Spells.token .comma (fun n hn => by cases hn)
          exact .gap hgap ih
      · exact List.cons_ne_nil _ _

/-- **Members between brackets are a piece.** Blanks may stand after the opening bracket, after each
comma and before the closing bracket. -/
theorem piece_enclosed {opening closing : JsonToken} {left right : Char}
    (hbracket : Bracket opening closing left right) (hgap : ∀ c ∈ gap, isBlank c = true)
    (hgap' : ∀ c ∈ gap', isBlank c = true) (hpieces : List.Forall₂ Piece pieces tokenLists) :
    Piece (left :: (gap ++ (joinWith (',' :: gap) pieces ++ (gap' ++ [right]))))
      (opening :: (List.intercalate [.comma] tokenLists ++ [closing])) := by
  intro rest more hcloses hrest
  -- from the end to the front, since a part is a piece before a known rest
  have hend : Spells (right :: rest) (closing :: more) ∧ Closes (right :: rest) := by
    cases hbracket with
    | array =>
      exact ⟨.token .closeArray (fun n hn => by cases hn) hrest,
        closes_cons rfl (by decide) (by decide) (by decide)⟩
    | object =>
      exact ⟨.token .closeObject (fun n hn => by cases hn) hrest,
        closes_cons rfl (by decide) (by decide) (by decide)⟩
  have hmembers := spells_members hgap hpieces (closes_gap hgap' hend.2) (.gap hgap' hend.1)
  have hinner := Spells.gap hgap hmembers
  simp only [List.cons_append, List.append_assoc]
  cases hbracket with
  | array => exact .token .openArray (fun n hn => by cases hn) hinner
  | object => exact .token .openObject (fun n hn => by cases hn) hinner

/-- A key, a colon, blanks and a piece are a piece. -/
theorem piece_field (key : String) (hgap : ∀ c ∈ gap, isBlank c = true) (h : Piece cs ts) :
    Piece (writeString (some key) ++ ':' :: (gap ++ cs))
      (.string (some key) :: .colon :: ts) := by
  intro rest more hcloses hrest
  rw [List.append_assoc, List.cons_append, List.append_assoc]
  apply Spells.token (.text key) (fun n hn => by cases hn)
  apply Spells.token .colon (fun n hn => by cases hn)
  exact .gap hgap (h rest more hcloses hrest)

end JsonToken

/-! ## Written documents -/

namespace JsonValue

open JsonToken

variable {v : JsonValue}

theorem compactItems_eq_map (items : List JsonValue) : compactItems items = items.map compact := by
  induction items with
  | nil => rw [compactItems, List.map_nil]
  | cons v items ih => rw [compactItems, List.map_cons, ih]

theorem compactFields_eq_map (fields : List (Option String × JsonValue)) :
    compactFields fields =
      fields.map fun field => writeString field.1 ++ ':' :: field.2.compact := by
  induction fields with
  | nil => rw [compactFields, List.map_nil]
  | cons field fields ih => rw [compactFields, List.map_cons, ih]

theorem prettyItems_eq_map (level : Nat) (items : List JsonValue) :
    prettyItems level items = items.map (prettyAt level) := by
  induction items with
  | nil => rw [prettyItems, List.map_nil]
  | cons v items ih => rw [prettyItems, List.map_cons, ih]

theorem prettyFields_eq_map (level : Nat) (fields : List (Option String × JsonValue)) :
    prettyFields level fields =
      fields.map fun field => writeString field.1 ++ ':' :: ' ' :: field.2.prettyAt level := by
  induction fields with
  | nil => rw [prettyFields, List.map_nil]
  | cons field fields ih => rw [prettyFields, List.map_cons, ih]

theorem isBlank_newLine (level : Nat) : ∀ c ∈ newLine level, isBlank c = true := by
  intro c hc
  rcases List.mem_cons.1 hc with rfl | hc
  · rfl
  · rw [List.eq_of_mem_replicate hc]
    rfl

theorem piece_block {opening closing : JsonToken} {left right : Char} (level : Nat)
    {pieces : List (List Char)} {tokenLists : List (List JsonToken)}
    (hbracket : Bracket opening closing left right)
    (hpieces : List.Forall₂ Piece pieces tokenLists) :
    Piece (block level left right pieces)
      (opening :: (List.intercalate [.comma] tokenLists ++ [closing])) := by
  cases hpieces with
  | nil => exact piece_enclosed hbracket (List.forall_mem_nil _) (List.forall_mem_nil _) .nil
  | cons hpiece hpieces =>
    rw [block, if_neg (by simp), List.append_assoc, List.append_assoc]
    exact piece_enclosed hbracket (isBlank_newLine _) (isBlank_newLine _) (.cons hpiece hpieces)

/-- Items are written as pieces if each of them is. -/
theorem piece_items {write : JsonValue → List Char} {items : List JsonValue}
    (h : ∀ v ∈ items, Piece (write v) v.tokens) :
    List.Forall₂ Piece (items.map write) (itemTokens items) := by
  rw [itemTokens_eq_map, List.forall₂_map_left_iff, List.forall₂_map_right_iff, List.forall₂_same]
  exact h

/-- Fields are written as pieces if their values are, with blanks after the colon. -/
theorem piece_fields {write : JsonValue → List Char} {gap : List Char}
    {fields : List (Option String × JsonValue)} (hgap : ∀ c ∈ gap, isBlank c = true)
    (hkeys : ∀ field ∈ fields, field.1.isSome = true)
    (h : ∀ field ∈ fields, Piece (write field.2) field.2.tokens) :
    List.Forall₂ Piece
      (fields.map fun field => writeString field.1 ++ ':' :: (gap ++ write field.2))
      (fieldTokens fields) := by
  rw [fieldTokens_eq_map, List.forall₂_map_left_iff, List.forall₂_map_right_iff,
    List.forall₂_same]
  intro field hfield
  obtain ⟨key, hkey⟩ := Option.isSome_iff_exists.1 (hkeys field hfield)
  rw [hkey]
  exact piece_field key hgap (h field hfield)

theorem piece_number (n : Nat) : Piece (Numeral.ofNat n).text [.number (.ofNat n)] := by
  have htext : (Numeral.ofNat n).text = Nat.toDigits 10 n := by simp [Numeral.text, Numeral.ofNat]
  rw [htext]
  exact piece_lexeme (.nat n)

theorem Plain.piece_compact (h : Plain v) : Piece v.compact v.tokens := by
  induction h with
  | null => exact piece_lexeme .null
  | bool b => cases b <;> exact piece_lexeme (.bool _)
  | nat n => exact piece_number n
  | text s => exact piece_lexeme (.text s)
  | array _ ih =>
    rw [compact, tokens, compactItems_eq_map]
    exact piece_enclosed .array (List.forall_mem_nil _) (List.forall_mem_nil _) (piece_items ih)
  | object hkeys _ ih =>
    rw [compact, tokens, compactFields_eq_map]
    exact piece_enclosed .object (List.forall_mem_nil _) (List.forall_mem_nil _)
      (piece_fields (List.forall_mem_nil _) hkeys ih)

theorem Plain.piece_prettyAt (h : Plain v) (level : Nat) : Piece (v.prettyAt level) v.tokens := by
  induction h generalizing level with
  | null => exact piece_lexeme .null
  | bool b => cases b <;> exact piece_lexeme (.bool _)
  | nat n => exact piece_number n
  | text s => exact piece_lexeme (.text s)
  | array _ ih =>
    rw [prettyAt, tokens, prettyItems_eq_map]
    exact piece_block level .array (piece_items fun v hv => ih v hv (level + 1))
  | object hkeys _ ih =>
    have hspace : ∀ c ∈ [' '], isBlank c = true := List.forall_mem_singleton.2 rfl
    rw [prettyAt, tokens, prettyFields_eq_map]
    exact piece_block level .object
      (piece_fields hspace hkeys fun field hfield => ih field hfield (level + 1))

/-- A text that spells the tokens of a plain document is read as that document. -/
theorem Plain.read?_of_piece (h : Plain v) {cs : List Char} (hcs : Piece cs v.tokens) :
    read? cs = some v := by
  have hspells := hcs [] [] closes_nil .nil
  have hrun : JsonState.start.run? (v.tokens ++ []) = some ⟨.finished v, []⟩ := h.taken [] []
  rw [List.append_nil, List.append_nil] at hspells
  rw [List.append_nil] at hrun
  rw [read?, hspells.readAll?_eq]
  dsimp only [Option.bind_eq_bind, Option.bind_some]
  rw [hrun]
  rfl

/-- **A document written without blanks is read back.** -/
theorem Plain.read?_compact (h : Plain v) : read? v.compact = some v :=
  h.read?_of_piece h.piece_compact

/-- **A document written with one member to a line is read back.** -/
theorem Plain.read?_pretty (h : Plain v) : read? v.pretty.toList = some v := by
  rw [pretty, String.toList_ofList]
  exact h.read?_of_piece (h.piece_prettyAt 0)

end JsonValue

end QubitAllocation
