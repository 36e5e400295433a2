import QubitAllocation.Json.Quoted
import QubitAllocation.Json.Value

/-!
# Writing JSON

`compact` writes a document without blanks and `pretty` with one item or field to a line, indented
by two blanks for each level. An array or object without members is written on one line.
-/

namespace QubitAllocation

/-- The text of a number. -/
def Numeral.text (n : Numeral) : List Char :=
  let sign := if n.negative then ['-'] else []
  let fraction := if n.fraction.isEmpty then [] else '.' :: n.fraction
  let exponent :=
    match n.exponent with
    | none => []
    | some e => 'e' :: (toString e).toList
  sign ++ (toString n.whole).toList ++ fraction ++ exponent

namespace JsonValue

/-- A string; one that no text can hold is written empty. -/
def writeString (content : Option String) : List Char := Quoted.write (content.getD "")

/-- Pieces with a separator between them. -/
def joinWith (separator : List Char) : List (List Char) → List Char
  | [] => []
  | [piece] => piece
  | piece :: rest => piece ++ separator ++ joinWith separator rest

mutual

/-- A document without blanks. -/
def compact : JsonValue → List Char
  | .null => "null".toList
  | .bool true => "true".toList
  | .bool false => "false".toList
  | .number n => n.text
  | .string content => writeString content
  | .array items => '[' :: (joinWith [','] (compactItems items) ++ [']'])
  | .object fields => '\x7b' :: (joinWith [','] (compactFields fields) ++ ['\x7d'])

/-- The items of an array. -/
def compactItems : List JsonValue → List (List Char)
  | [] => []
  | v :: rest => compact v :: compactItems rest

/-- The fields of an object. -/
def compactFields : List (Option String × JsonValue) → List (List Char)
  | [] => []
  | (key, v) :: rest => (writeString key ++ ':' :: compact v) :: compactFields rest

end

/-- A line end and the indentation of a level. -/
def newLine (level : Nat) : List Char := '\n' :: List.replicate (2 * level) ' '

/-- Members between brackets, each on a line of its own one level further in. -/
def block (level : Nat) (opening closing : Char) (members : List (List Char)) : List Char :=
  if members.isEmpty then [opening, closing]
  else
    opening :: (newLine (level + 1) ++ joinWith (',' :: newLine (level + 1)) members ++
      newLine level ++ [closing])

mutual

/-- A document with one member to a line, at a level of indentation. -/
def prettyAt (level : Nat) : JsonValue → List Char
  | .array items => block level '[' ']' (prettyItems (level + 1) items)
  | .object fields => block level '\x7b' '\x7d' (prettyFields (level + 1) fields)
  | .null => "null".toList
  | .bool true => "true".toList
  | .bool false => "false".toList
  | .number n => n.text
  | .string content => writeString content

/-- The items of an array. -/
def prettyItems (level : Nat) : List JsonValue → List (List Char)
  | [] => []
  | v :: rest => prettyAt level v :: prettyItems level rest

/-- The fields of an object. -/
def prettyFields (level : Nat) : List (Option String × JsonValue) → List (List Char)
  | [] => []
  | (key, v) :: rest =>
    (writeString key ++ ':' :: ' ' :: prettyAt level v) :: prettyFields level rest

end

/-- A document with one member to a line. -/
def pretty (v : JsonValue) : String := String.ofList (prettyAt 0 v)

end JsonValue

end QubitAllocation
