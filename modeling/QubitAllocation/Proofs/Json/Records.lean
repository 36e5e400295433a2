import QubitAllocation.Proofs.Json.FieldOrder
import QubitAllocation.Proofs.Text.Word

/-!
# Records are read back

Dependencies, programs and solutions are read back from their documents if their numbers are of 32
bits, as those of every record that can be held are (`InWords`). The numbers of an operation have to
pass for doubles first (`Numeral.fitsDouble_ofNat`), because its fields are held until its tag is
known.

Every decoder ignores the order of fields. So a record is read back from every text of its document,
written without blanks or with one member to a line, and with the fields of its objects in any
order (`records_roundtrip`).
-/

set_option autoImplicit false

namespace QubitAllocation

open JsonValue Outcome

/-! ## Numbers of 32 bits -/

namespace Decimal

theorem roundDiv_one (n : Nat) : roundDiv n 1 = n := by
  simp [roundDiv, Nat.mod_one]

/-- A positive number of 32 bits is a double: a mantissa of 53 bits holds it exactly. -/
theorem value_nearest_one {n : Nat} (hpos : 0 < n) (h : n ≤ Text.wordMax) :
    ∃ k, (nearest n 1).value = ⟨n * Nat.pow 2 k, Nat.pow 2 k⟩ := by
  have hlog : Nat.log2 n < 32 := (Nat.log2_lt hpos.ne').2 (Nat.lt_succ_of_le h)
  have hexponent : (Nat.log2 n : Int) - (Nat.log2 1 : Int) - 52 = .negSucc (51 - Nat.log2 n) := by
    have hone : Nat.log2 1 = 0 := by decide
    rw [hone]
    omega
  -- the first bit of the number becomes the first bit of the mantissa
  have hfull : ¬ n * Nat.pow 2 (51 - Nat.log2 n + 1) < Nat.pow 2 52 * (1 * 1) := by
    have hle : 2 ^ Nat.log2 n ≤ n := Nat.log2_self_le hpos.ne'
    have hsplit : 2 ^ Nat.log2 n * 2 ^ (51 - Nat.log2 n + 1) = 2 ^ 52 := by
      rw [← Nat.pow_add]
      congr 1
      omega
    have := Nat.mul_le_mul_right (2 ^ (51 - Nat.log2 n + 1)) hle
    simp only [Nat.pow_eq]
    omega
  refine ⟨51 - Nat.log2 n + 1, ?_⟩
  rw [nearest, if_neg hpos.ne', hexponent]
  dsimp only [scaled]
  rw [if_neg hfull]
  show Ratio.mk (roundDiv (n * Nat.pow 2 (51 - Nat.log2 n + 1)) 1) _ = _
  rw [roundDiv_one]

end Decimal

namespace Numeral

variable {n : Nat}

/-- Digits are taken whole if their value can be kept. -/
theorem absorb_eq {cs : List Char} {acc : Nat} (h : Nat.ofDigitChars 10 cs acc ≤ significandMax) :
    absorb acc cs = (Nat.ofDigitChars 10 cs acc, []) := by
  induction cs generalizing acc with
  | nil => rw [absorb, Nat.ofDigitChars_nil]
  | cons c cs ih =>
    rw [Nat.ofDigitChars_cons] at h ⊢
    have hnext : 10 * acc + Text.digitValue c ≤ significandMax :=
      (Text.le_ofDigitChars cs _).trans h
    rw [absorb, if_pos hnext]
    exact ih h

theorem scientific_ofNat (h : n ≤ significandMax) : (ofNat n).scientific = (n, 0) := by
  have hvalue : Nat.ofDigitChars 10 (Nat.toDigits 10 n) 0 = n :=
    Nat.ofDigitChars_toDigits (by decide) (by decide)
  have habsorb : absorb 0 (Nat.toDigits 10 n) = (n, []) := by
    rw [absorb_eq (by rw [hvalue]; exact h), hvalue]
  unfold scientific ofNat
  simp [habsorb, absorb]

theorem fitsDouble_ofNat (h : n ≤ Text.wordMax) : (ofNat n).fitsDouble = true := by
  have hsmall : n < doubleBound := h.trans_lt (by decide +kernel)
  rw [fitsDouble, scientific_ofNat (h.trans (by decide))]
  dsimp only
  split_ifs with hzero hlarge
  · rfl
  · exact absurd hlarge (by decide)
  · -- the power of ten is zero, so the product is the number itself
    obtain ⟨k, hk⟩ := Decimal.value_nearest_one (n := n) (by omega) h
    obtain ⟨l, hl⟩ := Decimal.value_nearest_one Nat.one_pos (by decide)
    have hone : Nat.pow 10 (Int.toNat 0) = 1 := rfl
    have hpos : 0 < Nat.pow 2 k * Nat.pow 2 l :=
      Nat.mul_pos (Nat.pow_pos two_pos) (Nat.pow_pos two_pos)
    rw [hone, hk, hl, decide_eq_true_iff]
    calc n * Nat.pow 2 k * (1 * Nat.pow 2 l)
        = n * (Nat.pow 2 k * Nat.pow 2 l) := by ring
      _ < doubleBound * (Nat.pow 2 k * Nat.pow 2 l) := Nat.mul_lt_mul_of_pos_right hsmall hpos

end Numeral

namespace JsonValue

variable {n : Nat}

theorem word?_nat (h : n ≤ Text.wordMax) : (nat n).word? = some n :=
  if_pos ⟨rfl, rfl, rfl, h⟩

theorem list?_array {α : Type} {decode : JsonValue → Option α} {encode : α → JsonValue}
    {xs : List α} (h : ∀ x ∈ xs, decode (encode x) = some x) :
    list? decode (.array (xs.map encode)) = some xs := by
  show (xs.map encode).mapM decode = some xs
  rw [mapM_eq_some_iff, List.forall₂_map_left_iff, List.forall₂_same]
  exact h

theorem words?_array {ns : List Nat} (h : ∀ n ∈ ns, n ≤ Text.wordMax) :
    (JsonValue.array (ns.map nat)).words? = some ns :=
  list?_array fun n hn => word?_nat (h n hn)

/-- Decoding the items of an array and going on is decoding a list and going on. -/
theorem bind_items? {α β : Type} (decode : JsonValue → Option α) (next : List α → Option β)
    (v : JsonValue) :
    (v.items? >>= fun items => items.mapM decode >>= next) = list? decode v >>= next := by
  rw [list?]
  cases v.items? <;> rfl

theorem plain_record {fields : List (String × JsonValue)} (h : ∀ field ∈ fields, field.2.Plain) :
    (record fields).Plain := by
  apply Plain.object
  · rw [List.forall_mem_map]
    exact fun _ _ => rfl
  · rw [List.forall_mem_map]
    exact h

theorem plain_array {α : Type} {encode : α → JsonValue} {xs : List α}
    (h : ∀ x ∈ xs, (encode x).Plain) : (JsonValue.array (xs.map encode)).Plain :=
  .array (List.forall_mem_map.2 h)

end JsonValue

/-! ## Dependencies -/

/-- The numbers of the pair are of 32 bits. -/
def Pair.InWords (p : Pair) : Prop := p.control ≤ Text.wordMax ∧ p.target ≤ Text.wordMax

/-- The numbers of the dependency are of 32 bits. -/
def Dependency.InWords (d : Dependency) : Prop :=
  d.callPoint ≤ Text.wordMax ∧ ∀ p ∈ d.pairs, p.InWords

theorem Pair.ofJson?_toJson {p : Pair} (h : p.InWords) : Pair.ofJson? p.toJson = some p := by
  have hcolumns : p.toJson.columns? ["from", "to"] =
      some [some (nat p.control), some (nat p.target)] := rfl
  rw [Pair.ofJson?, hcolumns]
  dsimp only
  rw [word?_nat h.1, word?_nat h.2]
  rfl

theorem Pair.plain_toJson (p : Pair) : p.toJson.Plain := by
  apply plain_record
  rw [List.forall_mem_cons, List.forall_mem_singleton]
  exact ⟨.nat _, .nat _⟩

theorem Pair.ignoresOrder : IgnoresOrder Pair.ofJson? := by
  apply ignoresOrder_of_imp
  intro v w h p hp
  unfold Pair.ofJson? at hp ⊢
  split at hp
  · next a b hcolumns =>
    -- the columns in the other order are as many, and each decodes to the same
    obtain ⟨columns', hcolumns', hsame⟩ := h.columns?_eq_some hcolumns
    obtain _ | ⟨ha | _, _ | ⟨hb | _, _ | _⟩⟩ := hsame
    rw [hcolumns']
    dsimp only
    rw [← ignoresOrder_word? ha, ← ignoresOrder_word? hb]
    exact hp
  · cases hp

theorem Dependency.ofJson?_toJson {d : Dependency} (h : d.InWords) :
    Dependency.ofJson? d.toJson = some d := by
  have hcolumns : d.toJson.columns? ["call_point", "deps"] =
      some [some (nat d.callPoint), some (.array (d.pairs.map Pair.toJson))] := rfl
  rw [Dependency.ofJson?, hcolumns]
  simp only [bind_items?]
  rw [word?_nat h.1, list?_array fun p hp => Pair.ofJson?_toJson (h.2 p hp)]
  rfl

theorem Dependency.plain_toJson (d : Dependency) : d.toJson.Plain := by
  apply plain_record
  rw [List.forall_mem_cons, List.forall_mem_singleton]
  exact ⟨.nat _, plain_array fun p _ => p.plain_toJson⟩

theorem Dependency.ignoresOrder : IgnoresOrder Dependency.ofJson? := by
  apply ignoresOrder_of_imp
  intro v w h d hd
  unfold Dependency.ofJson? at hd ⊢
  split at hd
  · next callPoint pairs hcolumns =>
    obtain ⟨columns', hcolumns', hsame⟩ := h.columns?_eq_some hcolumns
    obtain _ | ⟨hcallPoint | _, _ | ⟨hpairs | _, _ | _⟩⟩ := hsame
    rw [hcolumns']
    simp only [bind_items?] at hd ⊢
    rw [← ignoresOrder_word? hcallPoint, ← ignoresOrder_list? Pair.ignoresOrder hpairs]
    exact hd
  · cases hd

theorem Dependencies.ofJson?_toJson {deps : Dependencies} (h : ∀ d ∈ deps, d.InWords) :
    Dependencies.ofJson? deps.toJson = some deps :=
  list?_array fun d hd => Dependency.ofJson?_toJson (h d hd)

theorem Dependencies.plain_toJson (deps : Dependencies) : deps.toJson.Plain :=
  plain_array fun d _ => d.plain_toJson

theorem Dependencies.ignoresOrder : IgnoresOrder Dependencies.ofJson? :=
  ignoresOrder_list? Dependency.ignoresOrder

/-! ## Programs -/

/-- The numbers of the statement are of 32 bits. -/
def Statement.InWords (s : Statement) : Prop :=
  (∀ q ∈ s.qubits, q ≤ Text.wordMax) ∧ ∀ c ∈ s.clbits, c ≤ Text.wordMax

/-- The numbers of the program are of 32 bits. -/
def Program.InWords (p : Program) : Prop :=
  p.numQubits ≤ Text.wordMax ∧ p.numClbits ≤ Text.wordMax ∧ ∀ s ∈ p.statements, s.InWords

theorem ignoresOrder_words? : IgnoresOrder words? := ignoresOrder_list? ignoresOrder_word?

theorem wordsOrNone?_eq {a b : Option JsonValue} (h : SameColumn a b) :
    wordsOrNone? a = wordsOrNone? b := by
  cases h with
  | none => rfl
  | some h => exact ignoresOrder_words? h

theorem wordOrZero?_eq {a b : Option JsonValue} (h : SameColumn a b) :
    wordOrZero? a = wordOrZero? b := by
  cases h with
  | none => rfl
  | some h => exact ignoresOrder_word? h

theorem Statement.ofJson?_toJson {s : Statement} (h : s.InWords) :
    Statement.ofJson? s.toJson = some s := by
  have hcolumns : s.toJson.columns? ["name", "qubits", "clbits"] =
      some [some (JsonValue.text s.name), some (.array (s.qubits.map nat)),
        some (.array (s.clbits.map nat))] := rfl
  rw [Statement.ofJson?, hcolumns]
  dsimp only [wordsOrNone?]
  rw [words?_array h.1, words?_array h.2]
  rfl

theorem Statement.plain_toJson (s : Statement) : s.toJson.Plain := by
  apply plain_record
  rw [List.forall_mem_cons, List.forall_mem_cons, List.forall_mem_singleton]
  exact ⟨.text _, plain_array fun q _ => .nat q, plain_array fun c _ => .nat c⟩

theorem Statement.ignoresOrder : IgnoresOrder Statement.ofJson? := by
  apply ignoresOrder_of_imp
  intro v w h s hs
  unfold Statement.ofJson? at hs ⊢
  split at hs
  · next name qubits clbits hcolumns =>
    obtain ⟨columns', hcolumns', hsame⟩ := h.columns?_eq_some hcolumns
    obtain _ | ⟨hname | _, _ | ⟨hqubits, _ | ⟨hclbits, _ | _⟩⟩⟩ := hsame
    rw [hcolumns']
    dsimp only
    rw [← ignoresOrder_text? hname, ← wordsOrNone?_eq hqubits, ← wordsOrNone?_eq hclbits]
    exact hs
  · cases hs

theorem Program.ofJson?_toJson {p : Program} (h : p.InWords) :
    Program.ofJson? p.toJson = some p := by
  have hcolumns : p.toJson.columns? ["num_qubits", "num_clbits", "statements"] =
      some [some (nat p.numQubits), some (nat p.numClbits),
        some (.array (p.statements.map Statement.toJson))] := rfl
  rw [Program.ofJson?, hcolumns]
  simp only [bind_items?, wordOrZero?]
  rw [word?_nat h.1, word?_nat h.2.1,
    list?_array fun s hs => Statement.ofJson?_toJson (h.2.2 s hs)]
  rfl

theorem Program.plain_toJson (p : Program) : p.toJson.Plain := by
  apply plain_record
  rw [List.forall_mem_cons, List.forall_mem_cons, List.forall_mem_singleton]
  exact ⟨.nat _, .nat _, plain_array fun s _ => s.plain_toJson⟩

theorem Program.ignoresOrder : IgnoresOrder Program.ofJson? := by
  apply ignoresOrder_of_imp
  intro v w h p hp
  unfold Program.ofJson? at hp ⊢
  split at hp
  · next numQubits numClbits statements hcolumns =>
    obtain ⟨columns', hcolumns', hsame⟩ := h.columns?_eq_some hcolumns
    obtain _ | ⟨hqubits, _ | ⟨hclbits, _ | ⟨hstatements | _, _ | _⟩⟩⟩ := hsame
    rw [hcolumns']
    simp only [bind_items?] at hp ⊢
    rw [← wordOrZero?_eq hqubits, ← wordOrZero?_eq hclbits,
      ← ignoresOrder_list? Statement.ignoresOrder hstatements]
    exact hp
  · cases hp

/-! ## Solutions -/

namespace Operation

/-- The tag of an operation. -/
def tag : Operation → String
  | cnot _ _ => "cnot"
  | rev _ _ => "rev"
  | swap _ _ => "swap"
  | longCnot _ _ _ => "long_cnot"

/-- The operands of an operation with their names. -/
def named : Operation → List (String × Nat)
  | cnot a b | rev a b | swap a b => [("a", a), ("b", b)]
  | longCnot a b bridge => [("a", a), ("b", b), ("bridge", bridge)]

/-- The operands of the operation are of 32 bits. -/
def InWords (op : Operation) : Prop := ∀ operand ∈ op.named, operand.2 ≤ Text.wordMax

variable {op : Operation} {depth : Nat}

theorem toJson_eq (op : Operation) :
    op.toJson = .object ((some "op", JsonValue.text op.tag) ::
      op.named.map fun operand => (some operand.1, nat operand.2)) := by
  cases op <;> rfl

/-- The fields of an operation can be held until its tag is known. -/
theorem InWords.holdable (h : op.InWords) :
    holdableFields depth ((some "op", JsonValue.text op.tag) ::
      op.named.map fun operand => (some operand.1, nat operand.2)) = true := by
  rw [holdableFields_eq_all, List.all_cons, Bool.and_eq_true, List.all_eq_true, List.forall_mem_map]
  constructor
  · rw [JsonValue.text, JsonValue.holdable]
    rfl
  · intro operand hoperand
    rw [nat, JsonValue.holdable]
    exact Numeral.fitsDouble_ofNat (h operand hoperand)

theorem InWords.ofTag?_eq (h : op.InWords)
    (operands : List String → Option (List (Option JsonValue)))
    (hoperands : operands (op.named.map Prod.fst) =
      some (op.named.map fun operand => some (nat operand.2))) :
    ofTag? op.tag operands = some op := by
  have hnames : (if op.tag = "long_cnot" then ["a", "b", "bridge"] else ["a", "b"]) =
      op.named.map Prod.fst := by
    cases op <;> rfl
  have hwords : (op.named.map fun operand => some (nat operand.2)).mapM
      (fun column => column.bind word?) = some (op.named.map Prod.snd) := by
    rw [mapM_eq_some_iff, List.forall₂_map_left_iff, List.forall₂_map_right_iff, List.forall₂_same]
    exact fun operand hoperand => word?_nat (h operand hoperand)
  unfold ofTag?
  refine Option.bind_eq_some_iff.2 ⟨_, (congrArg operands hnames).trans hoperands, ?_⟩
  refine Option.bind_eq_some_iff.2 ⟨_, hwords, ?_⟩
  cases op <;> rfl

theorem ofJson?_toJson (h : op.InWords) : ofJson? depth op.toJson = some op := by
  have htag : single? ((some "op", JsonValue.text op.tag) ::
      op.named.map fun operand => (some operand.1, nat operand.2)) "op" =
        some (some (JsonValue.text op.tag)) := by
    cases op <;> rfl
  have hcolumns : columns? (op.named.map Prod.fst) op.toJson =
      some (op.named.map fun operand => some (nat operand.2)) := by
    cases op <;> rfl
  rw [toJson_eq] at hcolumns ⊢
  rw [ofJson?, if_pos h.holdable, htag]
  exact h.ofTag?_eq (fun names => columns? names _) hcolumns

theorem plain_toJson (op : Operation) : op.toJson.Plain := by
  have hvalues : (record (("op", JsonValue.text op.tag) ::
      op.named.map fun operand => (operand.1, nat operand.2))).Plain := by
    apply plain_record
    rw [List.forall_mem_cons, List.forall_mem_map]
    exact ⟨.text _, fun operand _ => .nat _⟩
  cases op <;> exact hvalues

theorem ofTag?_of_sameColumns {tag : String}
    {operands operands' : List String → Option (List (Option JsonValue))}
    (hsame : ∀ {names columns}, operands names = some columns →
      ∃ columns', operands' names = some columns' ∧ List.Forall₂ SameColumn columns columns')
    (h : ofTag? tag operands = some op) : ofTag? tag operands' = some op := by
  have hword : ∀ a b : Option JsonValue, SameColumn a b → a.bind word? = b.bind word? := by
    intro a b hab
    cases hab with
    | none => rfl
    | some hab => exact ignoresOrder_word? hab
  unfold ofTag? at h ⊢
  obtain ⟨columns, hcolumns, h⟩ := Option.bind_eq_some_iff.1 h
  obtain ⟨columns', hcolumns', hrel⟩ := hsame hcolumns
  refine Option.bind_eq_some_iff.2 ⟨columns', hcolumns', ?_⟩
  rw [← mapM_eq_of_forall₂ hword hrel]
  exact h

theorem keys_of_holdableFields {fields : List (Option String × JsonValue)}
    (h : holdableFields depth fields = true) : ∀ key ∈ fields.map Prod.fst, key.isSome = true := by
  rw [holdableFields_eq_all, List.all_eq_true] at h
  rw [List.forall_mem_map]
  intro field hfield
  exact (Bool.and_eq_true_iff.1 (h field hfield)).1

theorem eq_array_of_items? {v : JsonValue} {items : List JsonValue} (h : v.items? = some items) :
    v = .array items := by
  cases v with
  | array _ =>
    cases h
    rfl
  | _ => cases h

theorem single?_of_columns? {fields : List (Option String × JsonValue)} {tag : JsonValue}
    (h : columns? ["op"] (.object fields) = some [some tag]) :
    single? fields "op" = some (some tag) := by
  obtain ⟨-, hcolumns⟩ := columns?_object_iff.1 h
  cases hcolumns with
  | cons htag _ => exact htag

theorem ignoresOrder (depth : Nat) : IgnoresOrder (ofJson? depth) := by
  apply ignoresOrder_of_imp
  intro v w h op hop
  cases v with
  | object fields =>
    obtain ⟨fields', rfl⟩ := h.exists_object ⟨fields, rfl⟩
    rw [ofJson?] at hop ⊢
    split_ifs at hop with hhold
    have hhold' : holdableFields depth fields' = true := by
      have hdeeper := h.holdable_eq (depth + 1)
      rwa [JsonValue.holdable, JsonValue.holdable, hhold, eq_comm] at hdeeper
    obtain ⟨column, hcolumn, hfound⟩ := Option.bind_eq_some_iff.1 hop
    obtain ⟨tag, rfl, htagged⟩ := Option.bind_eq_some_iff.1 hfound
    obtain ⟨name, hname, hnamed⟩ := Option.bind_eq_some_iff.1 htagged
    -- the tag is a column like the others, so it is found in the other order too
    have hcolumns : columns? ["op"] (.object fields) = some [some tag] :=
      columns?_object_iff.2 ⟨keys_of_holdableFields hhold, .cons hcolumn .nil⟩
    obtain ⟨columns', hcolumns', hsame⟩ := h.columns?_eq_some hcolumns
    obtain _ | ⟨htag | _, _ | _⟩ := hsame
    have hname' := (ignoresOrder_text? htag).symm.trans hname
    rw [if_pos hhold']
    refine Option.bind_eq_some_iff.2 ⟨_, single?_of_columns? hcolumns', ?_⟩
    refine Option.bind_eq_some_iff.2 ⟨_, rfl, ?_⟩
    exact Option.bind_eq_some_iff.2 ⟨name, hname', ofTag?_of_sameColumns h.columns?_eq_some hnamed⟩
  | array items =>
    obtain ⟨items', hitems', hsame⟩ := h.items?_eq_some rfl
    obtain rfl := eq_array_of_items? hitems'
    cases hsame with
    | nil => exact hop
    | @cons tag tag' operands operands' htag hoperands =>
      obtain ⟨name, hname, hnamed⟩ := Option.bind_eq_some_iff.1 hop
      have hname' := (ignoresOrder_text? htag).symm.trans hname
      refine Option.bind_eq_some_iff.2 ⟨name, hname', ofTag?_of_sameColumns ?_ hnamed⟩
      intro names columns hcolumns
      split_ifs at hcolumns with hlen
      cases hcolumns
      rw [if_pos (hoperands.length_eq.symm.trans hlen)]
      refine ⟨_, rfl, ?_⟩
      rw [List.forall₂_map_left_iff, List.forall₂_map_right_iff]
      exact hoperands.imp fun _ _ => .some
  | _ => cases hop

end Operation

/-- The numbers of the step are of 32 bits. -/
def Step.InWords (s : Step) : Prop :=
  s.callPoint ≤ Text.wordMax ∧ ∀ op ∈ s.ops, op.InWords

/-- The numbers of the solution are of 32 bits. -/
def Solution.InWords (s : Solution) : Prop :=
  (∀ x ∈ s.initial, x ≤ Text.wordMax) ∧ s.cost ≤ Text.wordMax ∧ ∀ step ∈ s.steps, step.InWords

theorem Step.ofJson?_toJson {s : Step} (h : s.InWords) : Step.ofJson? s.toJson = some s := by
  have hcolumns : s.toJson.columns? ["call_point", "ops"] =
      some [some (nat s.callPoint), some (.array (s.ops.map Operation.toJson))] := rfl
  rw [Step.ofJson?, hcolumns]
  simp only [bind_items?]
  rw [word?_nat h.1, list?_array fun op hop => Operation.ofJson?_toJson (h.2 op hop)]
  rfl

theorem Step.plain_toJson (s : Step) : s.toJson.Plain := by
  apply plain_record
  rw [List.forall_mem_cons, List.forall_mem_singleton]
  exact ⟨.nat _, plain_array fun op _ => op.plain_toJson⟩

theorem Step.ignoresOrder : IgnoresOrder Step.ofJson? := by
  apply ignoresOrder_of_imp
  intro v w h s hs
  unfold Step.ofJson? at hs ⊢
  split at hs
  · next callPoint ops hcolumns =>
    obtain ⟨columns', hcolumns', hsame⟩ := h.columns?_eq_some hcolumns
    obtain _ | ⟨hcallPoint | _, _ | ⟨hops | _, _ | _⟩⟩ := hsame
    rw [hcolumns']
    simp only [bind_items?] at hs ⊢
    rw [← ignoresOrder_word? hcallPoint, ← ignoresOrder_list? (Operation.ignoresOrder _) hops]
    exact hs
  · cases hs

theorem Solution.ofJson?_toJson {s : Solution} (h : s.InWords) :
    Solution.ofJson? s.toJson = some s := by
  have hcolumns : s.toJson.columns? ["initial", "cost", "op_seqs"] =
      some [some (.array (s.initial.map nat)), some (nat s.cost),
        some (.array (s.steps.map Step.toJson))] := rfl
  rw [Solution.ofJson?, hcolumns]
  simp only [bind_items?]
  rw [words?_array h.1, word?_nat h.2.1,
    list?_array fun step hstep => Step.ofJson?_toJson (h.2.2 step hstep)]
  rfl

theorem Solution.plain_toJson (s : Solution) : s.toJson.Plain := by
  apply plain_record
  rw [List.forall_mem_cons, List.forall_mem_cons, List.forall_mem_singleton]
  exact ⟨plain_array fun x _ => .nat x, .nat _, plain_array fun step _ => step.plain_toJson⟩

theorem Solution.ignoresOrder : IgnoresOrder Solution.ofJson? := by
  apply ignoresOrder_of_imp
  intro v w h s hs
  unfold Solution.ofJson? at hs ⊢
  split at hs
  · next initial cost steps hcolumns =>
    obtain ⟨columns', hcolumns', hsame⟩ := h.columns?_eq_some hcolumns
    obtain _ | ⟨hinitial | _, _ | ⟨hcost | _, _ | ⟨hsteps | _, _ | _⟩⟩⟩ := hsame
    rw [hcolumns']
    simp only [bind_items?] at hs ⊢
    rw [← ignoresOrder_words? hinitial, ← ignoresOrder_word? hcost,
      ← ignoresOrder_list? Step.ignoresOrder hsteps]
    exact hs
  · cases hs

/-! ## Texts of records -/

/-- The text is the document with the fields of its objects in some order, without blanks or with
one member to a line. -/
def JsonValue.WrittenAs (v : JsonValue) (text : String) : Prop :=
  ∃ w, v.Reorders w ∧ (text = String.ofList w.compact ∨ text = w.pretty)

/-- Decoding a text of a plain document is decoding the document. -/
theorem JsonValue.IgnoresOrder.bind_read? {α : Type} {decode : JsonValue → Option α}
    (hdecode : IgnoresOrder decode) {v : JsonValue} (hv : v.Plain) {text : String}
    (h : v.WrittenAs text) : (JsonValue.read? text.toList).bind decode = decode v := by
  obtain ⟨w, hvw, hwritten⟩ := h
  have hw : w.Plain := hvw.plain hv
  have hread : JsonValue.read? text.toList = some w := by
    rcases hwritten with rfl | rfl
    · rw [String.toList_ofList]
      exact hw.read?_compact
    · exact hw.read?_pretty
  rw [hread, Option.bind_some, hdecode hvw]

/-- **Records are read back from their texts.** A solution, dependencies and a program whose numbers
are of 32 bits are read from every text of their documents, whatever the order of fields, a program
if it is valid and otherwise with the refusal of its validation. And whatever documents two texts
hold, if these differ in the order of fields only, tags included, then the texts are read alike. -/
theorem records_roundtrip :
    (∀ s : Solution, s.InWords → ∀ text, s.toJson.WrittenAs text →
      Solution.readJson text = .ok s) ∧
    (∀ deps : Dependencies, (∀ d ∈ deps, d.InWords) → ∀ text, deps.toJson.WrittenAs text →
      Dependencies.readJson text = .ok deps) ∧
    (∀ p : Program, p.InWords → ∀ text, p.toJson.WrittenAs text →
      (p.validate = .ok () → Program.readJson text = .ok p) ∧
      ∀ e, p.validate = .error e → Program.readJson text = .error e) ∧
    ∀ text text' v w, JsonValue.read? text.toList = some v →
      JsonValue.read? text'.toList = some w → v.Reorders w →
      Solution.readJson text = Solution.readJson text' ∧
      Dependencies.readJson text = Dependencies.readJson text' ∧
      Program.readJson text = Program.readJson text' := by
  refine ⟨?_, ?_, ?_, ?_⟩
  · intro s hs text htext
    rw [Solution.readJson, Solution.ignoresOrder.bind_read? s.plain_toJson htext,
      Solution.ofJson?_toJson hs]
  · intro deps hdeps text htext
    rw [Dependencies.readJson, Dependencies.ignoresOrder.bind_read? deps.plain_toJson htext,
      Dependencies.ofJson?_toJson hdeps]
  · intro p hp text htext
    rw [Program.readJson, Program.ignoresOrder.bind_read? p.plain_toJson htext,
      Program.ofJson?_toJson hp]
    constructor
    · intro hvalid
      exact bind_of_eq_ok hvalid
    · intro e he
      exact bind_eq_error_iff.2 (Or.inl he)
  · intro text text' v w hv hw hvw
    rw [Solution.readJson, Solution.readJson, Dependencies.readJson, Dependencies.readJson,
      Program.readJson, Program.readJson, hv, hw, Option.bind_some, Option.bind_some,
      Option.bind_some, Option.bind_some, Option.bind_some, Option.bind_some,
      Solution.ignoresOrder hvw, Dependencies.ignoresOrder hvw, Program.ignoresOrder hvw]
    exact ⟨rfl, rfl, rfl⟩

/-- A solution written with the fields of all its objects backwards, so that the tag of its
operation comes last; and a program with a name that has to be escaped, once valid and once not. -/
theorem records_roundtrip_backwards :
    let s : Solution := ⟨[1, 0], 7, [⟨3, [.swap 0 1]⟩]⟩
    let backwards : JsonValue := record
      [("op_seqs", .array [record [("ops", .array [record
        [("b", nat 1), ("a", nat 0), ("op", JsonValue.text "swap")]]), ("call_point", nat 3)]]),
        ("cost", nat 7), ("initial", .array [nat 1, nat 0])]
    let p : Program := ⟨2, 1, [⟨"\"Toffoli\"\n→ 😀", [1, 0], [0]⟩]⟩
    let narrow : Program := { p with numQubits := 1 }
    s.InWords ∧ s.toJson.Reorders backwards ∧
      Solution.readJson (String.ofList backwards.compact) = .ok s ∧
      p.InWords ∧ p.validate = .ok () ∧ Program.readJson p.toJson.pretty = .ok p ∧
      narrow.validate = .error (.qubitOutOfRange 1 1) ∧
      Program.readJson narrow.toJson.pretty = .error (.qubitOutOfRange 1 1) := by
  intro s backwards p narrow
  obtain ⟨hsolutions, -, hprograms, -⟩ := records_roundtrip
  have hs : s.InWords := by
    unfold Solution.InWords Step.InWords Operation.InWords
    decide
  have hp : p.InWords := by
    unfold Program.InWords Statement.InWords
    decide
  have hnarrow : narrow.InWords := ⟨by decide, hp.2⟩
  have hrefused : narrow.validate = .error (.qubitOutOfRange 1 1) := rfl
  have hop : (Operation.swap 0 1).toJson.Reorders (record
      [("b", nat 1), ("a", nat 0), ("op", JsonValue.text "swap")]) :=
    .fields (List.reverse_perm _).symm
  have hstep : (Step.mk 3 [.swap 0 1]).toJson.Reorders (record [("ops", .array [record
      [("b", nat 1), ("a", nat 0), ("op", JsonValue.text "swap")]]), ("call_point", nat 3)]) :=
    .trans (.field [(some "call_point", nat 3)] [] (some "ops") (.item [] [] hop))
      (.fields (List.reverse_perm _).symm)
  have hbackwards : s.toJson.Reorders backwards :=
    .trans (.field [(some "initial", .array [nat 1, nat 0]), (some "cost", nat 7)] []
      (some "op_seqs") (.item [] [] hstep)) (.fields (List.reverse_perm _).symm)
  refine ⟨hs, hbackwards, ?_, hp, rfl, ?_, hrefused, ?_⟩
  · exact hsolutions s hs _ ⟨backwards, hbackwards, Or.inl rfl⟩
  · exact (hprograms p hp _ ⟨p.toJson, .refl _, Or.inr rfl⟩).1 rfl
  · exact (hprograms narrow hnarrow _ ⟨narrow.toJson, .refl _, Or.inr rfl⟩).2 _ hrefused

end QubitAllocation
