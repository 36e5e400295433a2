import QubitAllocation.Config.Yaml
import QubitAllocation.Proofs.Json.Token
import QubitAllocation.Proofs.Outcome
import QubitAllocation.Proofs.Yaml.Rows

/-!
# Configurations as text

The text of a configuration is a block mapping with one line for each key, and the three prices
below the key `costs`. Reading it gives the configuration again, or the refusal of a swap without
cost (`config_round_trip`). Keys may be left out: `textOf` keeps the lines of some keys only, and the
configuration that is read has the standard values for the others (`keeping`). Something has to be
left of the document, and of the costs if their key is (`ConfigKey.NonEmpty`).
-/

set_option autoImplicit false

namespace QubitAllocation

open Yaml

/-! ## Keys -/

/-- The keys of a configuration. -/
inductive ConfigKey
  | allocator
  | costs
  | swap
  | reverse
  | longCnot
  | placement
  | verify
  deriving DecidableEq, Repr

namespace ConfigKey

/-- How a key is written. -/
def name : ConfigKey → String
  | allocator => "allocator"
  | costs => "costs"
  | swap => "swap"
  | reverse => "reverse"
  | longCnot => "long_cnot"
  | placement => "mapping"
  | verify => "verify"

/-- The key whose value a key is part of. -/
def group? : ConfigKey → Option ConfigKey
  | swap | reverse | longCnot => some costs
  | _ => none

/-- The line of a key with a value on it. What is part of a key's value stands below it, two
columns further right. -/
def row (key : ConfigKey) (value : String) : String :=
  (if key.group?.isSome then "  " else "") ++ key.name ++ ": " ++ value ++ "\n"

theorem name_injective : Function.Injective name := by
  intro a b h
  cases a <;> cases b <;> first | rfl | exact absurd h (by decide)

theorem isWord_name (key : ConfigKey) : IsWord key.name.toList := by
  cases key <;> decide +kernel

theorem length_name_le (key : ConfigKey) : key.name.toList.length ≤ keyReach := by
  cases key <;> decide +kernel

theorem toList_row (key : ConfigKey) (value : String) :
    (key.row value).toList =
      (Value.word value).line (if key.group?.isSome then 2 else 0) key.name := by
  have hindent : (if key.group?.isSome then "  " else "").toList =
      List.replicate (if key.group?.isSome then 2 else 0) ' ' := by
    split <;> rfl
  have hcolon : ": ".toList = [':', ' '] := rfl
  have hnewline : "\n".toList = ['\n'] := rfl
  simp only [row, String.toList_append, hindent, hcolon, hnewline, Value.line]
  simp

end ConfigKey

/-! ## Rows with some keys only -/

section Kept

variable {keep : ConfigKey → Bool} {fields : List (ConfigKey × Value)} {key : ConfigKey} {value : Value}

/-- The rows of the keys that are kept. -/
def keptRows (keep : ConfigKey → Bool) (fields : List (ConfigKey × Value)) : Rows :=
  .ofList ((fields.filter fun field => keep field.1).map fun field => (field.1.name, field.2))

/-- The nodes of the keys that are kept. -/
def keptNodes (keep : ConfigKey → Bool) (fields : List (ConfigKey × Value)) :
    List (String × YamlNode) :=
  (fields.filter fun field => keep field.1).map fun field => (field.1.name, field.2.node)

theorem keptRows_ne_nil (hmem : key ∈ fields.map Prod.fst) (hkeep : keep key = true) :
    keptRows keep fields ≠ .nil := by
  obtain ⟨field, hfield, rfl⟩ := List.mem_map.1 hmem
  apply Rows.ofList_ne_nil
  rw [Ne, List.map_eq_nil_iff, List.filter_eq_nil_iff]
  exact fun hnone => hnone field hfield hkeep

theorem plain_keptRows (h : ∀ field ∈ fields, keep field.1 = true → field.2.Plain) :
    (keptRows keep fields).Plain := by
  apply Rows.plain_ofList
  intro field hfield
  obtain ⟨⟨key, value⟩, hmem, rfl⟩ := List.mem_map.1 hfield
  obtain ⟨hmem, hkeep⟩ := List.mem_filter.1 hmem
  exact ⟨key.isWord_name, key.length_name_le, h _ hmem hkeep⟩

theorem flatMap_filter {α β : Type} (p : α → Bool) (f : α → List β) (xs : List α) :
    (xs.filter p).flatMap f = xs.flatMap fun x => if p x then f x else [] := by
  induction xs with
  | nil => rfl
  | cons x xs ih => cases hx : p x <;> simp [hx, ih]

theorem text_keptRows (column : Nat) :
    (keptRows keep fields).text column =
      fields.flatMap fun field => if keep field.1 then field.2.line column field.1.name else [] := by
  rw [keptRows, Rows.text_ofList, List.flatMap_map, flatMap_filter]

theorem entriesOf?_keptRows (d : YamlDocument) :
    Config.entriesOf? d (Value.block (keptRows keep fields)).node =
      some (keptNodes keep fields) := by
  have hread : ∀ entry ∈ fields.filter (fun field => keep field.1), (do
      let key ← d.text? (YamlNode.scalar .plain none entry.1.name)
      return (key, entry.2.node)) = some (entry.1.name, entry.2.node) := fun entry _ => rfl
  rw [Value.node, keptRows, Rows.entries_ofList, List.map_map]
  show List.mapM _ (List.map _ _) = _
  rw [List.mapM_map]
  exact Outcome.mapM_eq_some_map hread

/-- Only one row has a key. -/
theorem filter_name_eq (hnodup : (fields.map Prod.fst).Nodup) (hmem : (key, value) ∈ fields) :
    fields.filter (fun field => field.1.name == key.name) = [(key, value)] := by
  induction fields with
  | nil => cases hmem
  | cons field fields ih =>
    rw [List.map_cons, List.nodup_cons] at hnodup
    rcases List.mem_cons.1 hmem with rfl | hrest
    · have hnone : fields.filter (fun field => field.1.name == key.name) = [] := by
        rw [List.filter_eq_nil_iff]
        intro field hfield hname
        have hin : field.1 ∈ fields.map Prod.fst := List.mem_map_of_mem hfield
        rw [ConfigKey.name_injective (eq_of_beq hname)] at hin
        exact hnodup.1 hin
      rw [List.filter_cons_of_pos (by simp), hnone]
    · have hne : (field.1.name == key.name) = false := by
        rw [beq_eq_false_iff_ne]
        intro hname
        have hin : key ∈ fields.map Prod.fst := List.mem_map_of_mem hrest
        rw [← ConfigKey.name_injective hname] at hin
        exact hnodup.1 hin
      rw [List.filter_cons_of_neg (by simp [hne]), ih hnodup.2 hrest]

/-- The value of a key among those that are kept. -/
theorem value?_keptNodes (hnodup : (fields.map Prod.fst).Nodup) (hmem : (key, value) ∈ fields) :
    Config.value? (keptNodes keep fields) key.name =
      some (if keep key then some value.node else none) := by
  have hfilter : (fields.filter fun field => keep field.1).filter
      (fun field => field.1.name == key.name) = if keep key then [(key, value)] else [] := by
    rw [List.filter_comm, filter_name_eq hnodup hmem]
    cases hkeep : keep key <;> simp [hkeep]
  have hnamed : (keptNodes keep fields).filter (fun entry => entry.1 == key.name) =
      if keep key then [(key.name, value.node)] else [] := by
    rw [keptNodes, List.filter_map]
    refine (congrArg (List.map _) hfilter).trans ?_
    cases keep key <;> rfl
  rw [Config.value?, hnamed]
  cases keep key <;> rfl

theorem field?_keptNodes (keep : ConfigKey → Bool) {α : Type} (read : YamlNode → Option α) {a : α}
    (b : α) (hnodup : (fields.map Prod.fst).Nodup) (hmem : (key, value) ∈ fields)
    (hread : keep key = true → read value.node = some a) :
    Config.field? (keptNodes keep fields) key.name read b = some (if keep key then a else b) := by
  rw [Config.field?, value?_keptNodes hnodup hmem]
  cases hkeep : keep key with
  | false => rfl
  | true => exact hread hkeep

end Kept

namespace Config

variable {c : Config} {costs : CostModel} {keep : ConfigKey → Bool} {n : Nat}

/-- The lines of a configuration, each with its key. -/
def lines (c : Config) : List (ConfigKey × String) :=
  [(.allocator, ConfigKey.allocator.row c.allocator.name), (.costs, "costs:\n"),
    (.swap, ConfigKey.swap.row (toString c.costs.swap)),
    (.reverse, ConfigKey.reverse.row (toString c.costs.reverse)),
    (.longCnot, ConfigKey.longCnot.row (toString c.costs.longCnot)),
    (.placement, ConfigKey.placement.row c.placement.name),
    (.verify, ConfigKey.verify.row (toString c.verify))]

/-- The text of a configuration with some keys only. What is part of a key's value goes with it. -/
def textOf (keep : ConfigKey → Bool) (c : Config) : String :=
  String.join ((c.lines.filter fun line => keep line.1 && line.1.group?.all keep).map Prod.snd)

theorem toList_textOf (keep : ConfigKey → Bool) (c : Config) :
    (c.textOf keep).toList = c.lines.flatMap fun line =>
      if keep line.1 && line.1.group?.all keep then line.2.toList else [] := by
  rw [textOf, String.toList_join, List.flatMap_map, flatMap_filter]

theorem textOf_all (c : Config) : c.textOf (fun _ => true) = c.toYaml := rfl

/-- The costs as rows. -/
def costFields (costs : CostModel) : List (ConfigKey × Value) :=
  [(.swap, .word (toString costs.swap)), (.reverse, .word (toString costs.reverse)),
    (.longCnot, .word (toString costs.longCnot))]

/-- The configuration as rows. -/
def fields (keep : ConfigKey → Bool) (c : Config) : List (ConfigKey × Value) :=
  [(.allocator, .word c.allocator.name), (.costs, .block (keptRows keep (costFields c.costs))),
    (.placement, .word c.placement.name), (.verify, .word (toString c.verify))]

theorem toList_textOf_eq_text (keep : ConfigKey → Bool) (c : Config) :
    (c.textOf keep).toList = (keptRows keep (c.fields keep)).text 0 := by
  have hcosts : (Value.block (keptRows keep (costFields c.costs))).line 0 ConfigKey.costs.name =
      "costs:\n".toList ++ (keptRows keep (costFields c.costs)).text 2 := rfl
  rw [toList_textOf, text_keptRows]
  simp only [lines, fields, List.flatMap_cons, List.flatMap_nil, hcosts, text_keptRows,
    ConfigKey.toList_row, ConfigKey.group?, Option.all_some, Option.all_none]
  simp only [costFields, List.flatMap_cons, List.flatMap_nil]
  cases keep .costs <;> simp

/-! ## Values -/

theorem digitValue_of_isDigit {x : Char} (hx : x.isDigit = true) :
    baseDigit? 10 x = some (x.toNat - 48) := by
  have hbounds := Char.isDigit_iff_toNat.1 hx
  have hzero : '0'.toNat = 48 := rfl
  have hnine : '9'.toNat = 57 := rfl
  have hvalue : Quoted.hexValue? x = some (x.toNat - 48) := if_pos (by omega)
  have hlt : x.toNat - 48 < 10 := by omega
  simp [baseDigit?, hvalue, hlt]

/-- Decimal digits are read to their value. -/
theorem readBase?_of_isDigit {digits : List Char} (hne : digits ≠ [])
    (hdigits : ∀ x ∈ digits, x.isDigit = true) :
    readBase? 10 digits = some (Nat.ofDigitChars 10 digits 0) := by
  have hfold : ∀ acc, digits.foldlM
      (fun acc x => (baseDigit? 10 x).map fun n => acc * 10 + n) acc =
        some (Nat.ofDigitChars 10 digits acc) := by
    clear hne
    induction digits with
    | nil => exact fun acc => rfl
    | cons x digits ih =>
      rw [List.forall_mem_cons] at hdigits
      intro acc
      rw [List.foldlM_cons, digitValue_of_isDigit hdigits.1, Nat.ofDigitChars_cons]
      refine (ih hdigits.2 _).trans ?_
      rw [Nat.mul_comm]
      rfl
  rw [readBase?, if_neg (by simpa using hne), hfold]

/-- The decimal digits of a number carry no mark, and several of them do not start with a zero. -/
theorem readSigned?_toDigits (n : Nat) : readSigned? (Nat.toDigits 10 n) = some n := by
  rcases Nat.eq_zero_or_pos n with rfl | hn
  · rfl
  · obtain ⟨x, cs, hcs, hx⟩ := JsonToken.exists_toDigits n
    have hhead := JsonToken.head?_toDigits hn
    have hvalue : Nat.ofDigitChars 10 (Nat.toDigits 10 n) 0 = n :=
      Nat.ofDigitChars_toDigits (by decide) (by decide)
    have hread : readBase? 10 (Nat.toDigits 10 n) = some n := by
      rw [readBase?_of_isDigit Nat.toDigits_ne_nil fun y hy =>
        Nat.isDigit_of_mem_toDigits (by decide) (by decide) hy, hvalue]
    rw [hcs] at hread hhead ⊢
    have hzero : x ≠ '0' := fun h => hhead (congrArg some h)
    have hplus : x ≠ '+' := by
      rintro rfl
      cases hx
    unfold readSigned?
    split
    · next heq => exact absurd (List.cons.inj heq).1 hplus
    · unfold readNumber?
      split
      · next heq => exact absurd (List.cons.inj heq).1 hzero
      · next heq => exact absurd (List.cons.inj heq).1 hzero
      · next heq => exact absurd (List.cons.inj heq).1 hzero
      · next heq => exact absurd (List.cons.inj heq).1 hzero
      · exact hread

theorem number?_word (d : YamlDocument) (hn : n ≤ Text.wordMax) :
    number? d (Value.word (toString n)).node = some n := by
  have htext : (toString n).toList = Nat.toDigits 10 n := Nat.toList_repr
  have hread : (readSigned? (toString n).toList).filter (fun n => n ≤ Text.wordMax) = some n := by
    rw [htext, readSigned?_toDigits, Option.filter_some, if_pos (decide_eq_true hn)]
  exact hread

theorem truth?_word (d : YamlDocument) (b : Bool) :
    truth? d (Value.word (toString b)).node = some b := by
  cases b <;> rfl

end Config

theorem AllocatorKind.ofName?_name (kind : AllocatorKind) : ofName? kind.name = some kind := by
  cases kind <;> decide +kernel

theorem AllocatorKind.isWord_name (kind : AllocatorKind) : IsWord kind.name.toList := by
  cases kind <;> decide +kernel

theorem Placement.ofName?_name (placement : Placement) :
    ofName? placement.name = some placement := by
  cases placement <;> decide +kernel

theorem Placement.isWord_name (placement : Placement) : IsWord placement.name.toList := by
  cases placement <;> decide +kernel

/-! ## Reading back -/

/-- The prices with the usual ones for the keys that are not kept. -/
def CostModel.keeping (keep : ConfigKey → Bool) (costs : CostModel) : CostModel where
  swap := if keep .swap then costs.swap else standard.swap
  reverse := if keep .reverse then costs.reverse else standard.reverse
  longCnot := if keep .longCnot then costs.longCnot else standard.longCnot

/-- Some key of the document is kept, and some cost if the costs are. -/
structure ConfigKey.NonEmpty (keep : ConfigKey → Bool) : Prop where
  document : ∃ key, key.group? = none ∧ keep key = true
  costs : keep .costs = true → ∃ key, key.group? = some .costs ∧ keep key = true

namespace Config

variable {c : Config} {costs : CostModel} {keep : ConfigKey → Bool} {n : Nat}

/-- The configuration with the standard values for the keys that are not kept. -/
def keeping (keep : ConfigKey → Bool) (c : Config) : Config where
  allocator := if keep .allocator then c.allocator else standard.allocator
  costs := if keep .costs then c.costs.keeping keep else standard.costs
  placement := if keep .placement then c.placement else standard.placement
  verify := if keep .verify then c.verify else standard.verify

theorem costs?_keptRows (keep : ConfigKey → Bool) (d : YamlDocument) (hcosts : costs.InWords) :
    costs? d (Value.block (keptRows keep (costFields costs))).node =
      some (costs.keeping keep) := by
  have hnodup : ((costFields costs).map Prod.fst).Nodup :=
    show [ConfigKey.swap, .reverse, .longCnot].Nodup by decide
  have hswap := field?_keptNodes keep (number? d) CostModel.standard.swap hnodup
    (show (.swap, .word (toString costs.swap)) ∈ costFields costs by simp [costFields])
    fun _ => number?_word d hcosts.swap_le
  have hreverse := field?_keptNodes keep (number? d) CostModel.standard.reverse hnodup
    (show (.reverse, .word (toString costs.reverse)) ∈ costFields costs by simp [costFields])
    fun _ => number?_word d hcosts.reverse_le
  have hlong := field?_keptNodes keep (number? d) CostModel.standard.longCnot hnodup
    (show (.longCnot, .word (toString costs.longCnot)) ∈ costFields costs by simp [costFields])
    fun _ => number?_word d hcosts.longCnot_le
  simp only [ConfigKey.name] at hswap hreverse hlong
  simp only [costs?, entriesOf?_keptRows, hswap, hreverse, hlong, Option.bind_eq_bind,
    Option.bind_some]
  rfl

/-- What a document of the kept keys gives. -/
theorem ofYaml?_keptRows (keep : ConfigKey → Bool) (hcosts : c.costs.InWords)
    (named : List (NameMark × YamlNode)) :
    ofYaml? ⟨.mapping (keptRows keep (c.fields keep)).entries, named⟩ = some (c.keeping keep) := by
  generalize hd : YamlDocument.mk (.mapping (keptRows keep (c.fields keep)).entries) named = d
  have hroot : d.root = (Value.block (keptRows keep (c.fields keep))).node := by
    rw [← hd]
    rfl
  have hnodup : ((c.fields keep).map Prod.fst).Nodup :=
    show [ConfigKey.allocator, .costs, .placement, .verify].Nodup by decide
  have hallocator := field?_keptNodes keep
    (fun node => (d.choice? node).bind AllocatorKind.ofName?) standard.allocator hnodup
    (show (.allocator, .word c.allocator.name) ∈ c.fields keep by simp [fields])
    fun _ => AllocatorKind.ofName?_name c.allocator
  have hcosts := field?_keptNodes keep (costs? d) standard.costs hnodup
    (show (.costs, .block (keptRows keep (costFields c.costs))) ∈ c.fields keep by simp [fields])
    fun _ => costs?_keptRows keep d hcosts
  have hplacement := field?_keptNodes keep
    (fun node => (d.choice? node).bind Placement.ofName?) standard.placement hnodup
    (show (.placement, .word c.placement.name) ∈ c.fields keep by simp [fields])
    fun _ => Placement.ofName?_name c.placement
  have hverify := field?_keptNodes keep (truth? d) standard.verify hnodup
    (show (.verify, .word (toString c.verify)) ∈ c.fields keep by simp [fields])
    fun _ => truth?_word d c.verify
  simp only [ConfigKey.name] at hallocator hcosts hplacement hverify
  simp only [ofYaml?, hroot, entriesOf?_keptRows, hallocator, hcosts, hplacement, hverify,
    Option.bind_eq_bind, Option.bind_some]
  rfl

theorem isWord_toString (n : Nat) : IsWord (toString n).toList := by
  have htext : (toString n).toList = Nat.toDigits 10 n := Nat.toList_repr
  have hdigits : ∀ x ∈ Nat.toDigits 10 n, x.isAlphanum = true := by
    intro x hx
    have hdigit := Nat.isDigit_of_mem_toDigits (by decide) (by decide) hx
    show (x.isAlpha || x.isDigit) = true
    rw [hdigit, Bool.or_true]
  obtain ⟨x, cs, hcs, hx⟩ := JsonToken.exists_toDigits n
  rw [htext]
  exact ⟨⟨x, cs, hcs, hdigits x (hcs ▸ List.mem_cons_self)⟩,
    fun y hy => isNameChar_of_isAlphanum (hdigits y hy)⟩

/-- Names, numbers and truth values are words. -/
theorem plain_fields (c : Config) (hkeep : ConfigKey.NonEmpty keep) :
    ∀ field ∈ c.fields keep, keep field.1 = true → field.2.Plain := by
  have hcosts : ∀ field ∈ costFields c.costs, keep field.1 = true → field.2.Plain := by
    simp only [costFields, List.forall_mem_cons]
    exact ⟨fun _ => isWord_toString _, fun _ => isWord_toString _, fun _ => isWord_toString _,
      fun field hfield => nomatch hfield⟩
  have hverify : IsWord (toString c.verify).toList := by
    cases c.verify <;> decide +kernel
  have hblock : keep .costs = true → keptRows keep (costFields c.costs) ≠ .nil := by
    intro hkept
    obtain ⟨key, hgroup, hkey⟩ := hkeep.costs hkept
    have hmem : key ∈ [ConfigKey.swap, .reverse, .longCnot] := by
      cases key <;> simp_all [ConfigKey.group?]
    exact keptRows_ne_nil hmem hkey
  simp only [fields, List.forall_mem_cons]
  exact ⟨fun _ => c.allocator.isWord_name, fun hkept => ⟨hblock hkept, plain_keptRows hcosts⟩,
    fun _ => c.placement.isWord_name, fun _ => hverify, fun field hfield => nomatch hfield⟩

theorem keptRows_fields_ne_nil (c : Config) (hkeep : ConfigKey.NonEmpty keep) :
    keptRows keep (c.fields keep) ≠ .nil := by
  obtain ⟨key, hgroup, hkey⟩ := hkeep.document
  have hmem : key ∈ [ConfigKey.allocator, .costs, .placement, .verify] := by
    cases key <;> simp_all [ConfigKey.group?]
  exact keptRows_ne_nil hmem hkey

theorem readYaml_textOf (hcosts : c.costs.InWords) (hkeep : ConfigKey.NonEmpty keep) :
    readYaml (c.textOf keep) =
      if (c.keeping keep).costs.swap = 0 then .error (.config .zeroSwapCost)
      else .ok (c.keeping keep) := by
  have hplain := plain_keptRows (plain_fields c hkeep)
  have hne := keptRows_fields_ne_nil c hkeep
  have htext : c.textOf keep = String.ofList ((keptRows keep (c.fields keep)).text 0) := by
    rw [← toList_textOf_eq_text, String.ofList_toList]
  rw [readYaml, htext, Rows.read?_text hplain hne, Option.bind_some, ofYaml?_keptRows keep hcosts]
  show (do (c.keeping keep).validate; return c.keeping keep) = _
  rw [validate]
  split_ifs <;> rfl

theorem keeping_all (c : Config) : c.keeping (fun _ => true) = c := rfl

/-- A configuration whose prices fit 32 bits reads back from its text, and is refused if a swap costs
nothing. If some keys are left out, and with a key what is part of its value, the standard values
stand in for them. -/
theorem config_round_trip (c : Config) (hcosts : c.costs.InWords) :
    (readYaml c.toYaml =
      if c.costs.swap = 0 then .error (.config .zeroSwapCost) else .ok c) ∧
    ConfigFault.zeroSwapCost.message = "swap cost must be non-zero" ∧
    c.textOf (fun _ => true) = c.toYaml ∧
    ∀ keep, ConfigKey.NonEmpty keep →
      readYaml (c.textOf keep) =
        if (c.keeping keep).costs.swap = 0 then .error (.config .zeroSwapCost)
        else .ok (c.keeping keep) := by
  have hall : ConfigKey.NonEmpty fun _ => true :=
    ⟨⟨.allocator, rfl, rfl⟩, fun _ => ⟨.swap, rfl, rfl⟩⟩
  refine ⟨?_, rfl, textOf_all c, fun keep hkeep => readYaml_textOf hcosts hkeep⟩
  have hread := readYaml_textOf (c := c) hcosts hall
  rwa [textOf_all, keeping_all] at hread

/-- Only the swap price and the first mapping are written. -/
theorem config_round_trip_partial :
    readYaml "costs:\n  swap: 4294967295\nmapping: identity\n" =
      .ok ⟨.dynprog, ⟨4294967295, 4, 10⟩, .identity, true⟩ := by
  have hread := (config_round_trip ⟨.pathGuided, ⟨4294967295, 0, 1⟩, .identity, false⟩
    ⟨by decide, by decide, by decide⟩).2.2.2
    (fun key => key == .costs || key == .swap || key == .placement)
    ⟨⟨.costs, rfl, rfl⟩, fun _ => ⟨.swap, rfl, rfl⟩⟩
  exact hread

end Config

end QubitAllocation
