/-!
# The text of a YAML document

A text is read character by character, and the place in it decides what a character means: the
column gives the indentation, and a key has to end on the line on which it starts. All line ends
are line feeds here, whatever they are in the text.
-/

namespace QubitAllocation.Yaml

/-- Characters that may stand in a document. -/
def isAllowed (c : Char) : Bool :=
  let n := c.toNat
  n == 9 || n == 10 || n == 13 || (0x20 ≤ n && n ≤ 0x7E) || n == 0x85 ||
    (0xA0 ≤ n && n ≤ 0xD7FF) || (0xE000 ≤ n && n ≤ 0xFFFD) || 0x10000 ≤ n

/-- Characters that end a line. -/
def isLineEnd (c : Char) : Bool :=
  let n := c.toNat
  n == 10 || n == 13 || n == 0x85 || n == 0x2028 || n == 0x2029

/-- Write every line end of a text as a line feed, after the characters of `done`, the latest
first. -/
def normalEnds (done : List Char) : List Char → List Char
  | [] => done.reverse
  | '\r' :: '\n' :: cs => normalEnds ('\n' :: done) cs
  | c :: cs => normalEnds ((if isLineEnd c then '\n' else c) :: done) cs

/-- Blanks inside a line. -/
def isBlank (c : Char) : Bool := c == ' ' || c == '\t'

/-- The byte order mark. -/
def isByteMark (c : Char) : Bool := c.toNat == 0xFEFF

/-- Characters of names: letters, digits, dashes and underscores. -/
def isNameChar (c : Char) : Bool := c.isAlphanum || c == '-' || c == '_'

/-- Brackets and commas, which structure a flow collection. -/
def isFlowMark (c : Char) : Bool :=
  c == ',' || c == '[' || c == ']' || c == '\x7b' || c == '\x7d'

/-- The line ends here. -/
def lineOver : List Char → Bool
  | [] => true
  | c :: _ => c == '\n'

/-- A blank follows, or the line ends. -/
def parted : List Char → Bool
  | [] => true
  | c :: _ => isBlank c || c == '\n'

/-- Three dashes or three dots that stand alone: in the first column they divide documents. -/
def isDivider : List Char → Bool
  | '-' :: '-' :: '-' :: cs => parted cs
  | '.' :: '.' :: '.' :: cs => parted cs
  | _ => false

/-- A place in a text: the line, the column in characters, and the bytes since the line began. -/
structure Place where
  line : Nat
  column : Nat
  bytes : Nat
  deriving DecidableEq, Repr

/-- The place after a character. -/
def Place.after (p : Place) (c : Char) : Place :=
  if c == '\n' then ⟨p.line + 1, 0, 0⟩ else ⟨p.line, p.column + 1, p.bytes + c.utf8Size⟩

/-- The place after several characters. -/
def Place.along (p : Place) (cs : List Char) : Place := cs.foldl Place.after p

/-- What is left of a text, and where it starts. -/
structure Source where
  rest : List Char
  place : Place
  deriving DecidableEq, Repr

namespace Source

/-- A text from its beginning. -/
def ofText (cs : List Char) : Source := ⟨cs, ⟨0, 0, 0⟩⟩

/-- Pass over some characters. -/
def skip (s : Source) (n : Nat) : Source := ⟨s.rest.drop n, s.place.along (s.rest.take n)⟩

/-- The characters of a class at the start. -/
def run (s : Source) (p : Char → Bool) : List Char := s.rest.takeWhile p

/-- Pass over the characters of a class at the start. -/
def skipRun (s : Source) (p : Char → Bool) : Source := s.skip (s.run p).length

/-- Pass over blanks, a comment and the end of the line. There is none if anything else is on the
line. -/
def finishLine? (s : Source) : Option Source :=
  let s := s.skipRun isBlank
  let s := if s.rest.head? == some '#' then s.skipRun (· != '\n') else s
  if lineOver s.rest then some (s.skip 1) else none

end Source

end QubitAllocation.Yaml
