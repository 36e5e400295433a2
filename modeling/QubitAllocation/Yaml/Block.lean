import QubitAllocation.Yaml.Scalar

/-!
# Block scalars

A block scalar is a run of lines that are indented further than what holds it, after a header line
that says how it ends and, if wanted, how far it is indented. A literal scalar keeps its lines; a
folded one joins neighbouring lines that do not start with a blank.
-/

namespace QubitAllocation.Yaml

/-- What becomes of the line ends after the last line. -/
inductive Chomp where
  | strip
  | clip
  | keep
  deriving DecidableEq, Repr

/-- The chomping that a header asks for. -/
def chomp? : Char → Option Chomp
  | '-' => some .strip
  | '+' => some .keep
  | _ => none

/-- The further indentation that a header asks for. -/
def deepening? (c : Char) : Option Nat :=
  if c.isDigit && c != '0' then some (Text.digitValue c) else none

/-- The header of a block scalar, its two parts in either order, and what follows it. -/
def blockHeader (s : Source) : Chomp × Option Nat × Source :=
  match s.rest.head?.bind chomp? with
  | some chomp =>
    let s := s.skip 1
    match s.rest.head?.bind deepening? with
    | some deeper => (chomp, some deeper, s.skip 1)
    | none => (chomp, none, s)
  | none =>
    match s.rest.head?.bind deepening? with
    | some deeper =>
      let s := s.skip 1
      match s.rest.head?.bind chomp? with
      | some chomp => (chomp, some deeper, s.skip 1)
      | none => (.clip, some deeper, s)
    | none => (.clip, none, s)

/-- Lines without text before the next line of a block: how many they are, and the column furthest
right that their blanks reach. -/
structure EmptyLines where
  count : Nat
  reach : Nat
  after : Source
  deriving DecidableEq, Repr

/-- Pass over lines without text and the indentation of the next line, which ends at the column
`indent` if that is known. A tab in the indentation is refused. -/
def readEmptyLines (indent : Option Nat) (count reach : Nat) (place : Place) :
    List Char → Option EmptyLines
  | [] => some ⟨count, max reach place.column, ⟨[], place⟩⟩
  | c :: cs =>
    let inside := indent.all fun column => place.column < column
    if inside && c == ' ' then readEmptyLines indent count reach (place.after c) cs
    else if inside && c == '\t' then none
    else if c == '\n' then
      readEmptyLines indent (count + 1) (max reach place.column) (place.after c) cs
    else some ⟨count, max reach place.column, ⟨c :: cs, place⟩⟩

/-- The lines of a block that have been read: their characters, the latest first, whether a line
end follows them, whether the last of them starts with a blank, and the empty lines after them. -/
structure BlockText where
  done : List Char
  ended : Bool
  indented : Bool
  empties : Nat
  deriving DecidableEq, Repr

/-- The characters before the next line, which starts with a blank or not. -/
def BlockText.beforeLine (b : BlockText) (literal startsBlank : Bool) : List Char :=
  let folds := !literal && b.ended && !b.indented && !startsBlank
  let done :=
    if folds then if b.empties = 0 then ' ' :: b.done else b.done
    else if b.ended then '\n' :: b.done
    else b.done
  List.replicate b.empties '\n' ++ done

/-- The text of a block that is over. -/
def BlockText.finish (b : BlockText) : Chomp → List Char
  | .strip => b.done.reverse
  | .clip => (if b.ended then '\n' :: b.done else b.done).reverse
  | .keep =>
    (List.replicate b.empties '\n' ++ (if b.ended then '\n' :: b.done else b.done)).reverse

/-- The lines of a block at the column `indent`. Each of them takes at least one character. -/
def readLines (literal : Bool) (indent : Nat) :
    Nat → BlockText → Source → Option (BlockText × Source)
  | 0, b, s => some (b, s)
  | fuel + 1, b, s =>
    match s.rest with
    | [] => some (b, s)
    | c :: _ =>
      if s.place.column = indent then
        let line := s.run (· != '\n')
        let s := s.skip line.length
        let done := line.reverse ++ b.beforeLine literal (isBlank c)
        let ended := !s.rest.isEmpty
        let s := s.skip 1
        match readEmptyLines (some indent) 0 0 s.place s.rest with
        | some empty =>
          readLines literal indent fuel ⟨done, ended, isBlank c, empty.count⟩ empty.after
        | none => none
      else some (b, s)

/-- A block scalar after its mark, held by what is indented by `parent`. -/
def readBlock (literal : Bool) (parent : Option Nat) (s : Source) : Option ScalarRun := do
  let (chomp, deeper, s) := blockHeader s
  let s ← s.finishLine?
  let known := deeper.map fun n => parent.getD 0 + n
  let empty ← readEmptyLines known 0 0 s.place s.rest
  let least := match parent with
    | some column => column + 1
    | none => 1
  let indent := known.getD (max empty.reach least)
  let (text, after) ←
    readLines literal indent empty.after.rest.length ⟨[], false, false, empty.count⟩ empty.after
  return ⟨String.ofList (text.finish chomp), false, after⟩

end QubitAllocation.Yaml
