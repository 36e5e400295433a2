/-!
# Decimal numbers of 32 bits

Every number of a description fits 32 bits. `readWord` reads one: an optional plus sign and then
ASCII digits. The leftmost character that cannot be taken decides which fault is reported, so a
digit that makes the value too large is reported before a later letter.
-/

namespace QubitAllocation.Text

/-- The largest 32-bit number. -/
def wordMax : Nat := 4294967295

/-- Why a text is no 32-bit number. -/
inductive NumberFault where
  | empty
  | invalidDigit
  | tooLarge
  deriving DecidableEq, Repr

/-- The wording of a number fault. -/
def NumberFault.message : NumberFault → String
  | .empty => "cannot parse integer from empty string"
  | .invalidDigit => "invalid digit found in string"
  | .tooLarge => "number too large to fit in target type"

/-- The value of an ASCII digit. -/
def digitValue (c : Char) : Nat := c.toNat - '0'.toNat

/-- Read digits onto the value `acc` read so far. -/
def readDigits (acc : Nat) : List Char → Except NumberFault Nat
  | [] => .ok acc
  | c :: cs =>
    if c.isDigit then
      let value := 10 * acc + digitValue c
      if value ≤ wordMax then readDigits value cs else .error .tooLarge
    else .error .invalidDigit

/-- Read a 32-bit number with an optional plus sign. -/
def readWord : List Char → Except NumberFault Nat
  | [] => .error .empty
  | ['+'] => .error .invalidDigit
  | '+' :: cs => readDigits 0 cs
  | cs => readDigits 0 cs

/-- Read a 32-bit number, forgetting the fault. -/
def readWord? (cs : List Char) : Option Nat :=
  (readWord cs).toOption

end QubitAllocation.Text
