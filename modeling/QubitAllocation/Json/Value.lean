import QubitAllocation.Decimal.Quotient
import QubitAllocation.Text.Number

/-!
# JSON values

A JSON document as a tree. Objects keep their fields in order and with repetitions. The content of
a string is `none` if an escape in it stands for an unpaired surrogate, which no text can hold:
such a string may be passed over but not used.
-/

namespace QubitAllocation

/-- A number as it is written: sign, whole part, digits after the point, and exponent. -/
structure Numeral where
  negative : Bool
  whole : Nat
  fraction : List Char
  exponent : Option Int
  deriving DecidableEq, Repr

namespace Numeral

/-- A natural number. -/
def ofNat (n : Nat) : Numeral := ⟨false, n, [], none⟩

/-- The number, if it is written as a natural number of 32 bits. -/
def word? (n : Numeral) : Option Nat :=
  if n.negative = false ∧ n.fraction = [] ∧ n.exponent = none ∧ n.whole ≤ Text.wordMax then
    some n.whole
  else none

/-- The largest significand that is kept. -/
def significandMax : Nat := 18446744073709551615

/-- Read digits onto a significand up to the first that it cannot take, which is left with those
after it. -/
def absorb (acc : Nat) : List Char → Nat × List Char
  | [] => (acc, [])
  | c :: cs =>
    let next := 10 * acc + Text.digitValue c
    if next ≤ significandMax then absorb next cs else (acc, c :: cs)

/-- The significand and the power of ten of a number. Digits of the whole part that the significand
cannot take raise the power; digits after the point that it cannot take are dropped. -/
def scientific (n : Numeral) : Nat × Int :=
  let (high, raised) := absorb 0 (toString n.whole).toList
  let (low, dropped) := absorb high n.fraction
  let taken : Int := n.fraction.length - dropped.length
  (low, raised.length - taken + n.exponent.getD 0)

/-- The least number that rounds to no finite double. -/
def doubleBound : Nat := Nat.pow 2 1024 - Nat.pow 2 970

/-- The number is a finite double: the significand and the power of ten are rounded to doubles each,
and their product rounds to a finite one. -/
def fitsDouble (n : Numeral) : Bool :=
  let (significand, power) := n.scientific
  if significand = 0 ∨ power < 0 then true
  else if 308 < power then false
  else
    let a := (Decimal.nearest significand 1).value
    let b := (Decimal.nearest (Nat.pow 10 power.toNat) 1).value
    a.num * b.num < doubleBound * (a.den * b.den)

end Numeral

/-- A JSON document. -/
inductive JsonValue where
  | null
  | bool (value : Bool)
  | number (value : Numeral)
  | string (content : Option String)
  | array (items : List JsonValue)
  | object (fields : List (Option String × JsonValue))

namespace JsonValue

/-- A natural number. -/
def nat (n : Nat) : JsonValue := .number (.ofNat n)

/-- A text. -/
def text (s : String) : JsonValue := .string (some s)

/-- An object with the given fields. -/
def record (fields : List (String × JsonValue)) : JsonValue :=
  .object (fields.map fun field => (some field.1, field.2))

/-- The natural number of 32 bits that a value is. -/
def word? : JsonValue → Option Nat
  | .number n => n.word?
  | _ => none

/-- The text that a value is. -/
def text? : JsonValue → Option String
  | .string content => content
  | _ => none

/-- The items of an array. -/
def items? : JsonValue → Option (List JsonValue)
  | .array items => some items
  | _ => none

/-- The array of natural numbers of 32 bits that a value is. -/
def words? (v : JsonValue) : Option (List Nat) := v.items?.bind (List.mapM word?)

/-- The field `name`, if there is at most one: the outer `none` says that it is repeated. -/
def single? (fields : List (Option String × JsonValue)) (name : String) :
    Option (Option JsonValue) :=
  match fields.filter fun field => field.1 == some name with
  | [] => some none
  | [field] => some (some field.2)
  | _ => none

/-- The values of named fields. An object gives them by name, in any order and with other fields
between, and an array by position, where fields at the end may be missing. -/
def columns? (names : List String) : JsonValue → Option (List (Option JsonValue))
  | .object fields =>
    if fields.all fun field => field.1.isSome then names.mapM (single? fields) else none
  | .array items =>
    if items.length ≤ names.length then
      some (items.map some ++ List.replicate (names.length - items.length) none)
    else none
  | _ => none

mutual

/-- The value can be held as it is: its texts are whole, its numbers are doubles, and its arrays
and objects are nested at most `depth` deep. -/
def holdable (depth : Nat) : JsonValue → Bool
  | .null => true
  | .bool _ => true
  | .number n => n.fitsDouble
  | .string content => content.isSome
  | .array items =>
    match depth with
    | 0 => false
    | inner + 1 => holdableItems inner items
  | .object fields =>
    match depth with
    | 0 => false
    | inner + 1 => holdableFields inner fields

/-- Every item can be held. -/
def holdableItems (depth : Nat) : List JsonValue → Bool
  | [] => true
  | v :: rest => holdable depth v && holdableItems depth rest

/-- Every field can be held. -/
def holdableFields (depth : Nat) : List (Option String × JsonValue) → Bool
  | [] => true
  | (key, v) :: rest => key.isSome && holdable depth v && holdableFields depth rest

end

end JsonValue

end QubitAllocation
