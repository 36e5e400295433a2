import QubitAllocation.Json.Quoted
import QubitAllocation.Yaml.Source

/-!
# YAML scalars

Plain and quoted scalars. Between single quotes a quote is written twice; between double quotes a
backslash starts an escape. A plain scalar ends at a colon that a blank follows, at a comment, and
in a flow collection at a bracket or comma.

A scalar may run over several lines. Blanks around a line end are dropped, a single line end counts
as a blank, and of several line ends the first is dropped.
-/

namespace QubitAllocation.Yaml

/-- What lies between two characters of a scalar: blanks, the latest first; a line end and `more`
after it; or an escaped line end and `more` after it. -/
inductive Gap where
  | blanks (run : List Char)
  | folded (more : Nat)
  | joined (more : Nat)
  deriving DecidableEq, Repr

namespace Gap

/-- Nothing lies between. -/
def empty : Gap := .blanks []

/-- A blank after the gap; at a line end it does not count. -/
def addBlank (c : Char) : Gap → Gap
  | .blanks run => .blanks (c :: run)
  | gap => gap

/-- A line end after the gap; blanks before it do not count. -/
def addLineEnd : Gap → Gap
  | .blanks _ => .folded 0
  | .folded more => .folded (more + 1)
  | .joined more => .joined (more + 1)

/-- The gap holds a line end. -/
def isBroken : Gap → Bool
  | .blanks _ => false
  | _ => true

/-- The gap as text after the characters of `done`, the latest first. -/
def onto (done : List Char) : Gap → List Char
  | .blanks run => run ++ done
  | .folded 0 => ' ' :: done
  | .folded more => List.replicate more '\n' ++ done
  | .joined more => List.replicate more '\n' ++ done

end Gap

/-- A scalar with what follows it. `broken` says that a line end lies before what follows. -/
structure ScalarRun where
  text : String
  broken : Bool
  after : Source
  deriving DecidableEq, Repr

/-- A bracket, comma or question mark follows, before which a colon has no place in a flow
collection. -/
def isCrowded : List Char → Bool
  | [] => false
  | c :: _ => isFlowMark c || c == '?'

/-- The rest of a plain scalar after the characters of `done`, the latest first, and a gap. Lines
of a scalar outside flow collections start at the column `indent` or further right; a tab before
that column is refused. -/
def readPlain (flow : Bool) (indent : Nat) (done : List Char) (gap : Gap) (place : Place) :
    List Char → Option ScalarRun
  | [] => some ⟨String.ofList done.reverse, gap.isBroken, ⟨[], place⟩⟩
  | c :: cs =>
    if c == '\n' then readPlain flow indent done gap.addLineEnd (place.after c) cs
    else if isBlank c then
      if gap.isBroken && c == '\t' && place.column < indent then none
      else readPlain flow indent done (gap.addBlank c) (place.after c) cs
    else
      let stops := gap != Gap.empty &&
        ((!flow && place.column < indent) || c == '#' || (place.column == 0 && isDivider (c :: cs)))
      if !stops && flow && c == ':' && isCrowded cs then none
      else if stops || (c == ':' && parted cs) || (flow && isFlowMark c) then
        some ⟨String.ofList done.reverse, gap.isBroken, ⟨c :: cs, place⟩⟩
      else readPlain flow indent (c :: gap.onto done) Gap.empty (place.after c) cs

/-- The rest of a single-quoted scalar after the characters of `done`, the latest first, and a
gap. -/
def readSingle (done : List Char) (gap : Gap) (place : Place) : List Char → Option ScalarRun
  | [] => none
  | '\'' :: '\'' :: cs =>
    readSingle ('\'' :: gap.onto done) Gap.empty (place.along ['\'', '\'']) cs
  | '\'' :: cs => some ⟨String.ofList (gap.onto done).reverse, false, ⟨cs, place.after '\''⟩⟩
  | c :: cs =>
    if c == '\n' then readSingle done gap.addLineEnd (place.after c) cs
    else if isBlank c then readSingle done (gap.addBlank c) (place.after c) cs
    else if place.column == 0 && isDivider (c :: cs) then none
    else readSingle (c :: gap.onto done) Gap.empty (place.after c) cs

/-- The code point of a short escape between double quotes. -/
def doubleEscape? : Char → Option Nat
  | '0' => some 0
  | 'a' => some 7
  | 'b' => some 8
  | 't' => some 9
  | '\t' => some 9
  | 'n' => some 10
  | 'v' => some 11
  | 'f' => some 12
  | 'r' => some 13
  | 'e' => some 27
  | ' ' => some 32
  | '"' => some 34
  | '/' => some 47
  | '\\' => some 92
  | 'N' => some 0x85
  | '_' => some 0xA0
  | 'L' => some 0x2028
  | 'P' => some 0x2029
  | _ => none

/-- The character of a code point that is one. -/
def scalarChar? (n : Nat) : Option Char :=
  if n < 0xD800 ∨ (0xDFFF < n ∧ n < 0x110000) then some (Char.ofNat n) else none

/-- The character of eight hexadecimal digits. -/
def longEscape? (a b c d e f g h : Char) : Option Char := do
  let high ← Quoted.hexUnit? a b c d
  let low ← Quoted.hexUnit? e f g h
  scalarChar? (high * 65536 + low)

/-- The rest of a double-quoted scalar after the characters of `done`, the latest first, and a
gap. -/
def readDouble (done : List Char) (gap : Gap) (place : Place) : List Char → Option ScalarRun
  | [] => none
  | '"' :: cs => some ⟨String.ofList (gap.onto done).reverse, false, ⟨cs, place.after '"'⟩⟩
  | '\\' :: '\n' :: cs => readDouble (gap.onto done) (.joined 0) (place.after '\n') cs
  | '\\' :: 'x' :: a :: b :: cs =>
    match (Quoted.hexUnit? '0' '0' a b).bind scalarChar? with
    | some x => readDouble (x :: gap.onto done) Gap.empty (place.along ['\\', 'x', a, b]) cs
    | none => none
  | '\\' :: 'u' :: a :: b :: c :: d :: cs =>
    match (Quoted.hexUnit? a b c d).bind scalarChar? with
    | some x => readDouble (x :: gap.onto done) Gap.empty (place.along ['\\', 'u', a, b, c, d]) cs
    | none => none
  | '\\' :: 'U' :: a :: b :: c :: d :: e :: f :: g :: h :: cs =>
    match longEscape? a b c d e f g h with
    | some x =>
      readDouble (x :: gap.onto done) Gap.empty
        (place.along ['\\', 'U', a, b, c, d, e, f, g, h]) cs
    | none => none
  | '\\' :: e :: cs =>
    match (doubleEscape? e).bind scalarChar? with
    | some x => readDouble (x :: gap.onto done) Gap.empty (place.along ['\\', e]) cs
    | none => none
  | c :: cs =>
    if c == '\n' then readDouble done gap.addLineEnd (place.after c) cs
    else if isBlank c then readDouble done (gap.addBlank c) (place.after c) cs
    else if place.column == 0 && isDivider (c :: cs) then none
    else readDouble (c :: gap.onto done) Gap.empty (place.after c) cs

/-- Characters with which no plain scalar starts, unless the next character makes it part of
one. -/
def isIndicator (c : Char) : Bool :=
  isFlowMark c || c == '-' || c == '?' || c == ':' || c == '#' || c == '&' || c == '*' ||
    c == '!' || c == '|' || c == '>' || c == '\'' || c == '"' || c == '%' || c == '@' ||
    c == '\x60'

/-- A plain scalar may start here. -/
def startsPlain (flow : Bool) : List Char → Bool
  | [] => false
  | c :: cs =>
    !(isIndicator c || isBlank c || c == '\n') || (c == '-' && !(cs.head?.any isBlank)) ||
      (!flow && (c == '?' || c == ':') && !parted cs)

end QubitAllocation.Yaml
