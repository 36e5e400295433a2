import QubitAllocation.Text.Number

/-!
# Quoted strings

A quoted string is read in two passes: first into code units, one for each character and each
escape, and then into characters, where two escapes that are the halves of a surrogate pair make
one character. Writing escapes what must be escaped and nothing else.
-/

namespace QubitAllocation.Quoted

/-- The value of a hexadecimal digit. -/
def hexValue? (c : Char) : Option Nat :=
  let n := c.toNat
  if 48 ≤ n ∧ n ≤ 57 then some (n - 48)
  else if 97 ≤ n ∧ n ≤ 102 then some (n - 87)
  else if 65 ≤ n ∧ n ≤ 70 then some (n - 55)
  else none

/-- The code unit that four hexadecimal digits give. -/
def hexUnit? (a b c d : Char) : Option Nat := do
  let a ← hexValue? a
  let b ← hexValue? b
  let c ← hexValue? c
  let d ← hexValue? d
  return ((a * 16 + b) * 16 + c) * 16 + d

/-- The code unit of a short escape. -/
def shortEscape? : Char → Option Nat
  | '"' => some 34
  | '\\' => some 92
  | '/' => some 47
  | 'b' => some 8
  | 'f' => some 12
  | 'n' => some 10
  | 'r' => some 13
  | 't' => some 9
  | _ => none

/-- The code units up to the closing quote, after those of `done`, the latest first, and what
follows the quote. -/
def readUnits (done : List Nat) : List Char → Option (List Nat × List Char)
  | [] => none
  | '"' :: rest => some (done.reverse, rest)
  | '\\' :: 'u' :: a :: b :: c :: d :: rest =>
    match hexUnit? a b c d with
    | some unit => readUnits (unit :: done) rest
    | none => none
  | '\\' :: e :: rest =>
    match shortEscape? e with
    | some unit => readUnits (unit :: done) rest
    | none => none
  | c :: rest => if c.toNat < 32 then none else readUnits (c.toNat :: done) rest

/-- The first half of a surrogate pair. -/
def isHighHalf (u : Nat) : Bool := 0xD800 ≤ u && u ≤ 0xDBFF

/-- The second half of a surrogate pair. -/
def isLowHalf (u : Nat) : Bool := 0xDC00 ≤ u && u ≤ 0xDFFF

/-- The characters of code units after those of `done`, the latest first; an unpaired half has
none. -/
def joinUnits (done : List Char) : List Nat → Option (List Char)
  | [] => some done.reverse
  | [u] => if isHighHalf u || isLowHalf u then none else some (Char.ofNat u :: done).reverse
  | u :: v :: rest =>
    if isHighHalf u && isLowHalf v then
      joinUnits (Char.ofNat (0x10000 + (u - 0xD800) * 0x400 + (v - 0xDC00)) :: done) rest
    else if isHighHalf u || isLowHalf u then none
    else joinUnits (Char.ofNat u :: done) (v :: rest)

/-- The content of a string whose opening quote has been read, and what follows it. -/
def read (cs : List Char) : Option (Option String × List Char) :=
  match readUnits [] cs with
  | some (units, rest) => some ((joinUnits [] units).map String.ofList, rest)
  | none => none

/-- A hexadecimal digit in lower case. -/
def hexDigit (n : Nat) : Char := Char.ofNat (if n < 10 then 48 + n else 87 + n)

/-- A character as it stands between quotes. -/
def escape (c : Char) : List Char :=
  match c.toNat with
  | 34 => ['\\', '"']
  | 92 => ['\\', '\\']
  | 8 => ['\\', 'b']
  | 12 => ['\\', 'f']
  | 10 => ['\\', 'n']
  | 13 => ['\\', 'r']
  | 9 => ['\\', 't']
  | n =>
    if n < 32 then ['\\', 'u', '0', '0', hexDigit (n / 16), hexDigit (n % 16)] else [c]

/-- A text between quotes. -/
def write (s : String) : List Char := '"' :: (s.toList.flatMap escape ++ ['"'])

end QubitAllocation.Quoted
