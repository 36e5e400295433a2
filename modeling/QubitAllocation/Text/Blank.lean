/-!
# Blanks, lines and fields

Line-based descriptions are read as lists of characters. This file fixes which characters are
blank (the Unicode property White_Space), how a text falls into numbered lines, and how a line
falls into fields. Lines that hold nothing but blanks and lines whose first visible character is
`#` carry no content; `contentLines` drops them and keeps the numbers of the others.
-/

namespace QubitAllocation.Text

/-- Code points with the Unicode property White_Space. -/
def isBlank (c : Char) : Bool :=
  let n := c.toNat
  (9 ≤ n && n ≤ 13) || n == 32 || n == 0x85 || n == 0xA0 || n == 0x1680 ||
    (0x2000 ≤ n && n ≤ 0x200A) || n == 0x2028 || n == 0x2029 || n == 0x202F ||
    n == 0x205F || n == 0x3000

/-- Drop the characters at the end that satisfy `p`. -/
def dropEndWhile (p : Char → Bool) (cs : List Char) : List Char :=
  (cs.reverse.dropWhile p).reverse

/-- Drop blanks at both ends. -/
def trim (cs : List Char) : List Char :=
  dropEndWhile isBlank (cs.dropWhile isBlank)

/-- Put the character `c` in front of pieces already cut: it opens a new piece if it satisfies
`p`, and otherwise joins the first one. -/
def cutStep (p : Char → Bool) (c : Char) (pieces : List (List Char)) : List (List Char) :=
  if p c then [] :: pieces
  else
    match pieces with
    | [] => [[c]]
    | piece :: rest => (c :: piece) :: rest

/-- Cut at every character that satisfies `p`; the cuts are dropped and empty pieces kept. -/
def cutAt (p : Char → Bool) (cs : List Char) : List (List Char) :=
  cs.foldr (cutStep p) [[]]

/-- The non-empty pieces between separators. -/
def fieldsBy (separator : Char → Bool) (cs : List Char) : List (List Char) :=
  (cutAt separator cs).filter fun piece => !piece.isEmpty

/-- The fields of a line: its maximal runs of characters that are not blank. -/
def fields (cs : List Char) : List (List Char) :=
  fieldsBy isBlank cs

/-- A line of a text with its number, counted from one. -/
structure Line where
  number : Nat
  text : List Char
  deriving DecidableEq, Repr

/-- All lines, trimmed and numbered. -/
def numberedLines (cs : List Char) : List Line :=
  (cutAt (· == '\n') cs).zipIdx.map fun piece => ⟨piece.2 + 1, trim piece.1⟩

/-- A trimmed line that says something: it is neither empty nor a `#` comment. -/
def Line.hasContent (line : Line) : Bool :=
  match line.text with
  | [] => false
  | c :: _ => c != '#'

/-- The trimmed lines of a text that are neither blank nor comments. -/
def contentLines (cs : List Char) : List Line :=
  (numberedLines cs).filter Line.hasContent

/-- Two texts agree up to the case of ASCII letters. -/
def sameIgnoringCase (a b : List Char) : Bool :=
  a.map Char.toLower == b.map Char.toLower

/-- A list of numbers between square brackets. -/
def listing (values : List Nat) : String :=
  "[" ++ String.intercalate ", " (values.map toString) ++ "]"

end QubitAllocation.Text
