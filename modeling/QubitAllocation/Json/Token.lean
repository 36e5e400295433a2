import QubitAllocation.Json.Quoted
import QubitAllocation.Json.Value

/-!
# JSON tokens

A JSON text is a sequence of tokens with blanks around them: brackets, braces, commas and colons,
strings, numbers, and the words `null`, `true` and `false`. A token ends as soon as it is complete,
so two tokens may touch; which sequences are documents is decided later.
-/

namespace QubitAllocation

/-- A token of a JSON text. -/
inductive JsonToken where
  | openArray
  | closeArray
  | openObject
  | closeObject
  | comma
  | colon
  | null
  | bool (value : Bool)
  | number (value : Numeral)
  | string (content : Option String)
  deriving DecidableEq, Repr

namespace JsonToken

/-- Space, tab and line ends. -/
def isBlank (c : Char) : Bool := c == ' ' || c == '\t' || c == '\n' || c == '\r'

/-- Drop blanks. -/
def skipBlanks (cs : List Char) : List Char := cs.dropWhile isBlank

/-- One or more digits. -/
def readDigits? (cs : List Char) : Option (List Char × List Char) :=
  match cs.span Char.isDigit with
  | ([], _) => none
  | (digits, rest) => some (digits, rest)

/-- The value of digits. -/
def digitsValue (digits : List Char) : Nat :=
  digits.foldl (fun acc c => 10 * acc + Text.digitValue c) 0

/-- The whole part: a zero stands alone. -/
def readWhole? : List Char → Option (Nat × List Char)
  | '0' :: rest => some (0, rest)
  | cs => (readDigits? cs).map fun r => (digitsValue r.1, r.2)

/-- The digits after a point, if there is one. -/
def readFraction? : List Char → Option (List Char × List Char)
  | '.' :: rest => readDigits? rest
  | cs => some ([], cs)

/-- The exponent after its mark. -/
def readExponentValue? : List Char → Option (Int × List Char)
  | '-' :: rest => (readDigits? rest).map fun r => (-(digitsValue r.1 : Int), r.2)
  | '+' :: rest => (readDigits? rest).map fun r => ((digitsValue r.1 : Int), r.2)
  | cs => (readDigits? cs).map fun r => ((digitsValue r.1 : Int), r.2)

/-- The exponent, if there is one. -/
def readExponent? : List Char → Option (Option Int × List Char)
  | 'e' :: rest => (readExponentValue? rest).map fun r => (some r.1, r.2)
  | 'E' :: rest => (readExponentValue? rest).map fun r => (some r.1, r.2)
  | cs => some (none, cs)

/-- A number after its sign. -/
def readUnsigned? (negative : Bool) (cs : List Char) : Option (Numeral × List Char) := do
  let (whole, cs) ← readWhole? cs
  let (fraction, cs) ← readFraction? cs
  let (exponent, cs) ← readExponent? cs
  return (⟨negative, whole, fraction, exponent⟩, cs)

/-- A number. -/
def readNumeral? : List Char → Option (Numeral × List Char)
  | '-' :: rest => readUnsigned? true rest
  | cs => readUnsigned? false cs

/-- The token at the start of a text, and what follows it. -/
def read? : List Char → Option (JsonToken × List Char)
  | '[' :: rest => some (.openArray, rest)
  | ']' :: rest => some (.closeArray, rest)
  | '\x7b' :: rest => some (.openObject, rest)
  | '\x7d' :: rest => some (.closeObject, rest)
  | ',' :: rest => some (.comma, rest)
  | ':' :: rest => some (.colon, rest)
  | 'n' :: 'u' :: 'l' :: 'l' :: rest => some (.null, rest)
  | 't' :: 'r' :: 'u' :: 'e' :: rest => some (.bool true, rest)
  | 'f' :: 'a' :: 'l' :: 's' :: 'e' :: rest => some (.bool false, rest)
  | '"' :: rest => (Quoted.read rest).map fun r => (.string r.1, r.2)
  | cs => (readNumeral? cs).map fun r => (.number r.1, r.2)

/-- The tokens of a text after those of `done`, the latest first, at most `fuel` of them. -/
def readFrom (fuel : Nat) (done : List JsonToken) (cs : List Char) : Option (List JsonToken) :=
  match fuel, skipBlanks cs with
  | _, [] => some done.reverse
  | 0, _ => none
  | fuel + 1, cs =>
    match read? cs with
    | some (token, rest) => readFrom fuel (token :: done) rest
    | none => none

/-- The tokens of a text. Each takes at least one character. -/
def readAll? (cs : List Char) : Option (List JsonToken) := readFrom cs.length [] cs

end JsonToken

end QubitAllocation
