import QubitAllocation.Yaml.Node
import QubitAllocation.Yaml.TokenReader

/-!
# Reading YAML

Tokens are put together to nodes. The sequences and mappings that are still open are kept in a
list, innermost first, so that a document may be nested as deep as its text is long. A text holds
one document.
-/

namespace QubitAllocation

/-- Items of a sequence or entries of a mapping that is open, the latest first, with the mark of its
name if it has one. -/
structure YamlPart (α : Type) where
  mark : Option NameMark
  done : List α

/-- An open sequence or mapping, and what it waits for. A pair is a mapping with a single entry that
is written as an item of a flow sequence. An indentless sequence is the value of a key in whose
column its dashes are. -/
inductive YamlFrame where
  | blockItems (part : YamlPart YamlNode)
  | indentlessItems (part : YamlPart YamlNode)
  | flowItems (part : YamlPart YamlNode)
  | blockKey (part : YamlPart (YamlNode × YamlNode))
  | blockValue (part : YamlPart (YamlNode × YamlNode)) (key : YamlNode)
  | flowKey (part : YamlPart (YamlNode × YamlNode))
  | flowLone (part : YamlPart (YamlNode × YamlNode))
  | flowValue (part : YamlPart (YamlNode × YamlNode)) (key : YamlNode)
  | pairKey
  | pairValue (key : YamlNode)

/-- What happens next: a node is read, a node is handed to what is open, or what is open looks for
its next part. -/
inductive YamlPhase where
  | node (block indentless : Bool)
  | built (node : YamlNode)
  | next

/-- A reader between two steps. `names` are the names given so far, each once, with their numbers;
`marks` is how many nodes have a name, and `named` are those of them that are complete;
`tagAliases` says what the handles of tags stand for. -/
structure YamlState where
  phase : YamlPhase
  frames : List YamlFrame
  tokens : List YamlToken
  tagAliases : List (String × Option String)
  names : List (String × Nat)
  marks : Nat
  named : List (NameMark × YamlNode)

namespace YamlState

/-- Go on with a phase. -/
def go (s : YamlState) (phase : YamlPhase) : YamlState := { s with phase }

/-- Go on behind some tokens. -/
def drop (s : YamlState) (count : Nat) : YamlState := { s with tokens := s.tokens.drop count }

/-- Replace the innermost frame. -/
def setFrame (s : YamlState) (frame : YamlFrame) : YamlState :=
  { s with frames := frame :: s.frames.drop 1 }

/-- A collection begins. -/
def enter (s : YamlState) (frame : YamlFrame) : YamlState :=
  { s with phase := .next, frames := frame :: s.frames }

/-- The innermost collection is complete. -/
def leave (s : YamlState) (mark : Option NameMark) (node : YamlNode) : YamlState :=
  { s with
    phase := .built node
    frames := s.frames.drop 1
    named := (mark.map fun m => (m, node)).toList ++ s.named }

/-- A node without parts is complete. -/
def build (s : YamlState) (mark : Option NameMark) (node : YamlNode) : YamlState :=
  { s with
    phase := .built node
    named := (mark.map fun m => (m, node)).toList ++ s.named }

/-- Name and tag of a node. -/
structure Properties where
  name : Option String
  tag : Option (String × Option String)

/-- The name and the tag before a node, in either order, and how many tokens they are. -/
def properties : List YamlToken → Properties × Nat
  | .anchor name :: .tag handle suffix :: _ => (⟨some name, some (handle, suffix)⟩, 2)
  | .tag handle suffix :: .anchor name :: _ => (⟨some name, some (handle, suffix)⟩, 2)
  | .anchor name :: _ => (⟨some name, none⟩, 1)
  | .tag handle suffix :: _ => (⟨none, some (handle, suffix)⟩, 1)
  | _ => (⟨none, none⟩, 0)

/-- The tag that a handle and a suffix give, which may be no text; there is an error if the handle
is not known. -/
def resolveTag? (s : YamlState) : String × Option String → Option (Option String)
  | ("", suffix) => some suffix
  | (handle, suffix) =>
    (s.tagAliases.lookup handle).map fun stem => do
      return (← stem) ++ (← suffix)

/-- Give a name its number. -/
def register (s : YamlState) : Option String → YamlState × Option NameMark
  | none => (s, none)
  | some name =>
    let mark : NameMark := ⟨s.names.length, s.marks⟩
    let others := s.names.filter fun entry => entry.1 != name
    ({ s with names := (name, mark.number) :: others, marks := s.marks + 1 }, some mark)

/-- The node at the tokens, after its name and tag. `given` says that it has one of them, and then
it may be absent. -/
def content? (s : YamlState) (block indentless given : Bool) (mark : Option NameMark)
    (tag : Option String) : Option YamlState :=
  match s.tokens with
  | .scalar style text :: _ => some ((s.drop 1).build mark (.scalar style tag text))
  | .flowSequence :: _ => some ((s.drop 1).enter (.flowItems ⟨mark, []⟩))
  | .flowMapping :: _ => some ((s.drop 1).enter (.flowKey ⟨mark, []⟩))
  | token :: _ =>
    if indentless && token = .blockEntry then some (s.enter (.indentlessItems ⟨mark, []⟩))
    else if block && token = .blockSequence then
      some ((s.drop 1).enter (.blockItems ⟨mark, []⟩))
    else if block && token = .blockMapping then some ((s.drop 1).enter (.blockKey ⟨mark, []⟩))
    else if given then some (s.build mark (.scalar .plain tag ""))
    else none
  | [] => if given then some (s.build mark (.scalar .plain tag "")) else none

/-- A node, or a reference to one. -/
def node? (s : YamlState) (block indentless : Bool) : Option YamlState :=
  match s.tokens with
  | .alias name :: _ =>
    match s.names.lookup name with
    | some number => some ((s.drop 1).go (.built (.alias number)))
    | none => none
  | tokens => do
    let (given, count) := properties tokens
    let tag ← match given.tag with
      | none => some none
      | some parts => s.resolveTag? parts
    let (s, mark) := (s.drop count).register given.name
    s.content? block indentless (count != 0) mark tag

/-- A complete node goes to the innermost collection. -/
def accept (s : YamlState) (node : YamlNode) : YamlFrame → YamlState
  | .blockItems part => (s.setFrame (.blockItems { part with done := node :: part.done })).go .next
  | .indentlessItems part =>
    (s.setFrame (.indentlessItems { part with done := node :: part.done })).go .next
  | .flowItems part => (s.setFrame (.flowItems { part with done := node :: part.done })).go .next
  | .blockKey part => (s.setFrame (.blockValue part node)).go .next
  | .blockValue part key =>
    (s.setFrame (.blockKey { part with done := (key, node) :: part.done })).go .next
  | .flowKey part => (s.setFrame (.flowValue part node)).go .next
  | .flowLone part =>
    (s.setFrame (.flowKey { part with done := (node, .empty) :: part.done })).go .next
  | .flowValue part key =>
    (s.setFrame (.flowKey { part with done := (key, node) :: part.done })).go .next
  | .pairKey => (s.setFrame (.pairValue node)).go .next
  | .pairValue key => s.leave none (.mapping [(key, node)])

/-- A node of a block unless one of the given tokens says that it is absent. -/
def blockNode (s : YamlState) (indentless : Bool) (absent : List YamlToken) : YamlState :=
  match s.tokens with
  | [] => s.go (.node true indentless)
  | token :: _ =>
    if absent.contains token then s.go (.built .empty) else s.go (.node true indentless)

/-- A node between brackets unless one of the given tokens says that it is absent. -/
def flowNode (s : YamlState) (absent : List YamlToken) : YamlState :=
  match s.tokens with
  | [] => s.go (.node false false)
  | token :: _ => if absent.contains token then s.go (.built .empty) else s.go (.node false false)

/-- The next item of a flow sequence. -/
def flowItem (s : YamlState) (part : YamlPart YamlNode) : YamlState :=
  match s.tokens with
  | .flowSequenceEnd :: _ => (s.drop 1).leave part.mark (.sequence part.done.reverse)
  | .key :: _ => (s.drop 1).enter .pairKey
  | _ => s.go (.node false false)

/-- The next key of a flow mapping. -/
def flowEntry (s : YamlState) (part : YamlPart (YamlNode × YamlNode)) : YamlState :=
  match s.tokens with
  | .flowMappingEnd :: _ => (s.drop 1).leave part.mark (.mapping part.done.reverse)
  | .key :: _ => (s.drop 1).flowNode [.value, .flowEntry, .flowMappingEnd]
  | _ => (s.setFrame (.flowLone part)).go (.node false false)

/-- The innermost collection looks for its next part. -/
def continue? (s : YamlState) (frame : YamlFrame) : Option YamlState :=
  match frame, s.tokens with
  | .blockItems _, .blockEntry :: _ =>
    some ((s.drop 1).blockNode false [.blockEntry, .blockEnd])
  | .blockItems part, .blockEnd :: _ =>
    some ((s.drop 1).leave part.mark (.sequence part.done.reverse))
  | .indentlessItems _, .blockEntry :: _ =>
    some ((s.drop 1).blockNode false [.blockEntry, .key, .value, .blockEnd])
  | .indentlessItems part, _ => some (s.leave part.mark (.sequence part.done.reverse))
  | .blockKey _, .key :: _ => some ((s.drop 1).blockNode true [.key, .value, .blockEnd])
  | .blockKey part, .blockEnd :: _ =>
    some ((s.drop 1).leave part.mark (.mapping part.done.reverse))
  | .blockValue _ _, .value :: _ => some ((s.drop 1).blockNode true [.key, .value, .blockEnd])
  | .blockValue _ _, _ => some (s.go (.built .empty))
  | .flowItems part, .flowEntry :: _ =>
    if part.done.isEmpty then some (s.flowItem part) else some ((s.drop 1).flowItem part)
  | .flowItems part, .flowSequenceEnd :: _ => some (s.flowItem part)
  | .flowItems part, _ => if part.done.isEmpty then some (s.flowItem part) else none
  | .flowKey part, .flowEntry :: _ =>
    if part.done.isEmpty then some (s.flowEntry part) else some ((s.drop 1).flowEntry part)
  | .flowKey part, .flowMappingEnd :: _ => some (s.flowEntry part)
  | .flowKey part, _ => if part.done.isEmpty then some (s.flowEntry part) else none
  | .flowValue _ _, .value :: _ => some ((s.drop 1).flowNode [.flowEntry, .flowMappingEnd])
  | .flowValue _ _, _ => some (s.go (.built .empty))
  | .pairKey, token :: _ =>
    if [YamlToken.value, .flowEntry, .flowSequenceEnd].contains token then
      some ((s.drop 1).go (.built .empty))
    else some (s.go (.node false false))
  | .pairKey, [] => some (s.go (.node false false))
  | .pairValue _, .value :: _ => some ((s.drop 1).flowNode [.flowEntry, .flowSequenceEnd])
  | .pairValue _, _ => some (s.go (.built .empty))
  | _, _ => none

/-- One step, while a collection is open or a node is due. -/
def step? (s : YamlState) : Option YamlState :=
  match s.phase, s.frames with
  | .node block indentless, _ => s.node? block indentless
  | .built node, frame :: _ => some (s.accept node frame)
  | .next, frame :: _ => s.continue? frame
  | _, [] => none

/-- Read until the outermost node is complete, in at most `fuel` steps: that node, and the state
after it. -/
def run? : Nat → YamlState → Option (YamlNode × YamlState)
  | 0, _ => none
  | fuel + 1, s =>
    match s.phase, s.frames with
    | .built node, [] => some (node, s)
    | _, _ =>
      match s.step? with
      | some next => run? fuel next
      | none => none

end YamlState

namespace YamlDocument

/-- Directives before a document. -/
structure Directives where
  version : Bool
  tagAliases : List (String × Option String)

/-- Read directives. There may be one on the version, which is 1.1 or 1.2, and one on each
handle. -/
def directives? (d : Directives) : List YamlToken → Option (Directives × List YamlToken)
  | .version major minor :: tokens =>
    if d.version || major != 1 || (minor != 1 && minor != 2) then none
    else directives? { d with version := true } tokens
  | .tagAlias handle stem :: tokens =>
    if (d.tagAliases.lookup handle).isSome then none
    else directives? { d with tagAliases := d.tagAliases ++ [(handle, stem)] } tokens
  | tokens => some (d, tokens)

/-- What the handles stand for that no directive explains. -/
def commonTags : List (String × Option String) :=
  [("!", some "!"), ("!!", some "tag:yaml.org,2002:")]

/-- The document at the start of tokens, and the tokens after it. -/
def body? (d : Directives) (tokens : List YamlToken) : Option (YamlDocument × List YamlToken) := do
  let start : YamlState :=
    ⟨.node true false, [], tokens, d.tagAliases ++ commonTags, [], 0, []⟩
  let (root, final) ← start.run? (8 * tokens.length + 8)
  return (⟨root, final.named⟩, final.tokens)

/-- The document after its starting mark, which may be empty. -/
def markedBody? (d : Directives) (tokens : List YamlToken) :
    Option (YamlDocument × List YamlToken) :=
  match tokens with
  | [] | .version _ _ :: _ | .tagAlias _ _ :: _ | .documentStart :: _ | .documentEnd :: _ =>
    some (⟨.empty, []⟩, tokens)
  | _ => body? d tokens

/-- The first document of tokens, and those after it. The starting mark may be left out unless
there are directives. -/
def first? (tokens : List YamlToken) : Option (YamlDocument × List YamlToken) :=
  match tokens with
  | [] => some (⟨.empty, []⟩, [])
  | .version _ _ :: _ | .tagAlias _ _ :: _ | .documentStart :: _ =>
    match directives? ⟨false, []⟩ tokens with
    | some (d, .documentStart :: rest) => markedBody? d rest
    | _ => none
  | _ => body? ⟨false, []⟩ tokens

/-- The only document of tokens. Nothing but end marks may follow it. -/
def ofTokens? (tokens : List YamlToken) : Option YamlDocument := do
  let (d, rest) ← first? tokens
  if rest.all (· = .documentEnd) then some d else none

/-- The document that a text holds. -/
def read? (text : String) : Option YamlDocument := (Yaml.tokens? text).bind ofTokens?

end YamlDocument

end QubitAllocation
