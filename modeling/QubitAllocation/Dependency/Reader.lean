import QubitAllocation.Dependency.Basic
import QubitAllocation.Text.Number

/-!
# The text form of dependencies

One pair to a line, with or without a leading `cx`. Fields are separated by blanks, commas and
semicolons. An operand gives its qubit by the digits at its end, so `2`, `q2` and `q[2]` all name
qubit 2.
-/

namespace QubitAllocation.Dependencies

open Text

/-- Separators between the fields of a line. -/
def isSeparator (c : Char) : Bool := isBlank c || c == ',' || c == ';'

/-- The digits of an operand: closing brackets at its end and what precedes its first digit are
dropped. -/
def operandDigits (operand : List Char) : List Char :=
  (dropEndWhile (· == ']') operand).dropWhile fun c => !c.isDigit

/-- The qubit that an operand names. -/
def readOperand (line : Nat) (operand : List Char) : Except AllocError Nat :=
  match readWord? (operandDigits operand) with
  | some qubit => .ok qubit
  | none => .error (.malformed line (.invalidQubit (String.ofList operand)))

/-- The two operands among the fields of a line. -/
def operands? : List (List Char) → Option (List Char × List Char)
  | [name, a, b] => if sameIgnoringCase name "cx".toList then some (a, b) else none
  | [a, b] => some (a, b)
  | _ => none

/-- The pair that a line gives. -/
def readPair (line : Line) : Except AllocError Pair :=
  match operands? (fieldsBy isSeparator line.text) with
  | some (a, b) => do
    let control ← readOperand line.number a
    let target ← readOperand line.number b
    return ⟨control, target⟩
  | none => .error (.malformed line.number (.expectedPair (String.ofList line.text)))

/-- The dependencies that a text lists. -/
def read (text : String) : Except AllocError Dependencies := do
  let pairs ← (contentLines text.toList).mapM readPair
  return ofPairs pairs

end QubitAllocation.Dependencies
