import QubitAllocation.Text.Blank

/-!
# Files

What a path names, and a tree of files that answers it. A path is followed part by part from the
top of the tree: `..` goes up and a file has nothing below it. Above the tree there are
directories, of which nothing else is known. Paths and names have a greatest length in bytes.
-/

namespace QubitAllocation

/-- What a path names. -/
inductive Entry where
  | missing
  | belowFile
  | nameTooLong
  | directory
  | file (text : String)
  | unreadable (reason : String)
  deriving DecidableEq, Repr

namespace Entry

/-- The path names something. -/
def isPresent : Entry → Bool
  | missing | belowFile | nameTooLong => false
  | _ => true

/-- The text of a file, or why there is none. -/
def read : Entry → Except String String
  | missing => .error "No such file or directory (os error 2)"
  | belowFile => .error "Not a directory (os error 20)"
  | nameTooLong => .error "File name too long (os error 36)"
  | directory => .error "Is a directory (os error 21)"
  | file text => .ok text
  | unreadable reason => .error reason

end Entry

/-- The parts of a path between its slashes. -/
def pathParts (path : String) : List String :=
  (Text.fieldsBy (· == '/') path.toList).map String.ofList

/-- The part of a file's name after its last point. A point that starts the name does not count. -/
def extension? (path : String) : Option String :=
  match (pathParts path).getLast? with
  | none => none
  | some name =>
    let suffix := (name.toList.reverse.takeWhile (· != '.')).reverse
    if suffix.length + 1 < name.length then some (String.ofList suffix) else none

/-- Files by the parts of their paths. -/
structure FileTree where
  files : List (List String × String)

namespace FileTree

/-- The tree of files with their paths. -/
def ofFiles (files : List (String × String)) : FileTree :=
  ⟨files.map fun f => ((pathParts f.1).filter (· != "."), f.2)⟩

/-- Where a path has led: to a place in the tree, or above it. -/
inductive Place where
  | inside (parts : List String)
  | above
  deriving DecidableEq, Repr

/-- What is at a place. -/
def entryAt (t : FileTree) : Place → Entry
  | .above => .directory
  | .inside [] => .directory
  | .inside parts =>
    match t.files.lookup parts with
    | some text => .file text
    | none => if t.files.any fun f => parts.isPrefixOf f.1 then .directory else .missing

/-- The place one part further; nothing is known by name above the tree. -/
def next? (place : Place) (part : String) : Option Place :=
  match part, place with
  | ".", _ => some place
  | "..", .inside (part :: parts) => some (.inside (part :: parts).dropLast)
  | "..", _ => some .above
  | _, .inside parts => some (.inside (parts ++ [part]))
  | _, .above => none

/-- The greatest length of a name. -/
def nameMax : Nat := 255

/-- The greatest length of a path. -/
def pathMax : Nat := 4095

/-- Follow the parts of a path from a place. -/
def follow (t : FileTree) (place : Place) : List String → Entry
  | [] => t.entryAt place
  | part :: parts =>
    match t.entryAt place with
    | .directory =>
      if nameMax < part.utf8ByteSize then .nameTooLong
      else
        match next? place part with
        | some place => t.follow place parts
        | none => .missing
    | .file _ => .belowFile
    | entry => entry

/-- What a path names; a slash at its end asks for a directory. -/
def entry (t : FileTree) (path : String) : Entry :=
  let cs := path.toList
  if cs.isEmpty then .missing
  else if pathMax < path.utf8ByteSize then .nameTooLong
  else
    let start := if cs.head? = some '/' then Place.above else .inside []
    t.follow start (pathParts path ++ if cs.getLast? = some '/' then ["."] else [])

end FileTree

/-- What a command sees around it: files and variables. -/
structure Surroundings where
  entry : String → Entry
  env : String → Option String

end QubitAllocation
