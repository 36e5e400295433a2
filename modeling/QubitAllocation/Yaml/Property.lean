import QubitAllocation.Yaml.Scalar
import QubitAllocation.Yaml.Token

/-!
# Names, tags and directives

A node may be given a name by which it is referred to again, and a tag that says what it is. A tag
is a handle and a suffix; directives before a document say what its handles stand for and which
version of the format it follows. Bytes of a tag may be escaped. They need not be text, and an
escaped zero byte ends it.
-/

namespace QubitAllocation.Yaml

/-- A token with what follows it. -/
abbrev TokenRun := YamlToken × Source

/-- What may follow the name of a node. -/
def endsName (cs : List Char) : Bool :=
  parted cs || cs.head?.any fun c =>
    c == '?' || c == ':' || c == ',' || c == ']' || c == '\x7d' || c == '%' || c == '@' ||
      c == '\x60'

/-- The name after the mark of an anchor or alias. -/
def readName? (s : Source) : Option (String × Source) :=
  let name := s.run isNameChar
  let after := s.skip name.length
  if !name.isEmpty && endsName after.rest then some (String.ofList name, after) else none

/-- Characters of a tag besides those of names. Commas and brackets count only in tags between
angle brackets and in directives. -/
def isTagChar (wide : Bool) (c : Char) : Bool :=
  isNameChar c || c == ';' || c == '/' || c == '?' || c == ':' || c == '@' || c == '&' ||
    c == '=' || c == '+' || c == '$' || c == '.' || c == '%' || c == '!' || c == '~' ||
    c == '*' || c == '\'' || c == '(' || c == ')' || (wide && (c == ',' || c == '[' || c == ']'))

/-- The byte of an escape in a tag. -/
def escapedByte? : List Char → Option (Nat × List Char)
  | '%' :: a :: b :: cs => (Quoted.hexUnit? '0' '0' a b).map fun n => (n, cs)
  | _ => none

/-- The further bytes of an escaped character, onto the value of those before. -/
def escapedTail? : Nat → Nat → List Char → Option (Nat × List Char)
  | 0, value, cs => some (value, cs)
  | left + 1, value, cs =>
    match escapedByte? cs with
    | some (byte, rest) =>
      if byte / 64 = 2 then escapedTail? left (64 * value + byte % 64) rest else none
    | none => none

/-- The value of an escaped character of several bytes. It is a character if it is a code point that
does not fit into fewer bytes; `least` is the first such. -/
def wideChar? (least : Nat) (escaped : Nat × List Char) : Option Char × List Char :=
  (if least ≤ escaped.1 then scalarChar? escaped.1 else none, escaped.2)

/-- An escaped character, whose first byte says how many follow; `none` stands for bytes that are
no character. -/
def escapedChar? (cs : List Char) : Option (Option Char × List Char) := do
  let (byte, rest) ← escapedByte? cs
  if byte / 128 = 0 then some (some (Char.ofNat byte), rest)
  else if byte / 32 = 6 then (escapedTail? 1 (byte % 32) rest).map (wideChar? 0x80)
  else if byte / 16 = 14 then (escapedTail? 2 (byte % 16) rest).map (wideChar? 0x800)
  else if byte / 8 = 30 then (escapedTail? 3 (byte % 8) rest).map (wideChar? 0x10000)
  else none

/-- The characters that a tag stands for after those of `done`, the latest first. -/
def unescape (fuel : Nat) (done : List (Option Char)) (cs : List Char) :
    Option (List (Option Char)) :=
  match fuel, cs with
  | _, [] => some done.reverse
  | 0, _ => none
  | fuel + 1, '%' :: rest =>
    match escapedChar? ('%' :: rest) with
    | some (c, rest) => unescape fuel (c :: done) rest
    | none => none
  | fuel + 1, c :: rest => unescape fuel (some c :: done) rest

/-- The text of a tag: its characters up to a zero, if all of them are characters. -/
def tagText (cs : List (Option Char)) : Option String :=
  ((cs.takeWhile (· != some '\x00')).mapM id).map String.ofList

/-- A tag or a part of one without escapes, and what follows it. `written` says that at least one
character is written for it; its text may be empty all the same. -/
structure TagRun where
  written : Bool
  text : Option String
  after : Source
  deriving DecidableEq, Repr

/-- The characters of a tag at the start. -/
def readTagText? (wide : Bool) (s : Source) : Option TagRun := do
  let run := s.run (isTagChar wide)
  let cs ← unescape run.length [] run
  return ⟨!run.isEmpty, tagText cs, s.skip run.length⟩

/-- A handle: an exclamation mark, a name, and perhaps another mark, which `closed` tells. -/
structure Handle where
  name : List Char
  closed : Bool
  after : Source
  deriving DecidableEq, Repr

/-- The handle after its first mark. -/
def readHandle (s : Source) : Handle :=
  let name := s.run isNameChar
  let after := s.skip name.length
  if after.rest.head? == some '!' then ⟨name, true, after.skip 1⟩ else ⟨name, false, after⟩

/-- The handle as text. -/
def Handle.text (h : Handle) : String :=
  String.ofList ('!' :: (h.name ++ if h.closed then ['!'] else []))

/-- A tag after its first mark: whole between angle brackets, a handle with a suffix, or a suffix
alone. The mark by itself is a whole tag. -/
def readTag? (flow : Bool) (s : Source) : Option TokenRun := do
  let (handle, suffix, after) ←
    if s.rest.head? == some '<' then do
      let run ← readTagText? true (s.skip 1)
      if !run.written || run.after.rest.head? != some '>' then none
      else some ("", run.text, run.after.skip 1)
    else
      let handle := readHandle s
      if handle.closed then do
        let run ← readTagText? false handle.after
        if run.written then some (handle.text, run.text, run.after) else none
      else do
        let run ← readTagText? false s
        if run.text = some "" then some ("", some "!", run.after)
        else some ("!", run.text, run.after)
  if parted after.rest || (flow && after.rest.head? == some ',') then
    some (.tag handle suffix, after)
  else none

/-- One to nine digits. -/
def readVersionPart? (s : Source) : Option (Nat × Source) :=
  let digits := s.run Char.isDigit
  if digits.isEmpty || 9 < digits.length then none
  else some (digits.foldl (fun n c => 10 * n + Text.digitValue c) 0, s.skip digits.length)

/-- The version of a directive. -/
def readVersion? (s : Source) : Option TokenRun := do
  let (major, s) ← readVersionPart? s
  if s.rest.head? == some '.' then do
    let (minor, s) ← readVersionPart? (s.skip 1)
    return (.version major minor, s)
  else none

/-- The handle of a directive and what it stands for. -/
def readTagAlias? (s : Source) : Option TokenRun := do
  if s.rest.head? == some '!' then
    let handle := readHandle (s.skip 1)
    if (handle.closed || handle.name.isEmpty) && handle.after.rest.head?.any isBlank then do
      let run ← readTagText? true (handle.after.skipRun isBlank)
      if run.written && parted run.after.rest then some (.tagAlias handle.text run.text, run.after)
      else none
    else none
  else none

/-- A directive after its mark, with its whole line. -/
def readDirective? (s : Source) : Option TokenRun := do
  let name := s.run isNameChar
  let s := s.skip name.length
  if parted s.rest then
    let s := s.skipRun isBlank
    let (token, after) ←
      match String.ofList name with
      | "YAML" => readVersion? s
      | "TAG" => readTagAlias? s
      | _ => none
    let after ← after.finishLine?
    return (token, after)
  else none

end QubitAllocation.Yaml
