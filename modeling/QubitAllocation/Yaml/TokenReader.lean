import QubitAllocation.Yaml.Block
import QubitAllocation.Yaml.Property

/-!
# Reading YAML tokens

Outside flow collections, indentation decides where blocks begin and end. A key is recognised only
when the colon after it is met: where one may start, a place among the tokens is left open, and the
colon fills it. A key has to end on its line, at most 1024 bytes after its start.
-/

namespace QubitAllocation.Yaml

/-- Where a key may have started: the open place among the tokens, the place in the text, and
whether the indentation demands a key there. -/
structure KeyStart where
  slot : Nat
  place : Place
  required : Bool
  deriving DecidableEq, Repr

/-- The longest stretch, in bytes, from the start of a key to its colon. -/
def keyReach : Nat := 1024

/-- No key that started there can end here. -/
def KeyStart.isStale (k : KeyStart) (here : Place) : Bool :=
  k.place.line < here.line || k.place.bytes + keyReach < here.bytes

/-- A reader between two tokens.

`tokens` holds the tokens so far, with `none` in open places. `indent` is the column of the
innermost block, if there is one, and `outer` are those of the blocks around it. `keys` says for
the text outside brackets and for each open bracket, innermost first, where a key may have started.
`keyAllowed` says that a key may start here. -/
structure TokenState where
  source : Source
  tokens : Array (Option YamlToken)
  indent : Option Nat
  outer : List (Option Nat)
  keys : List (Option KeyStart)
  keyAllowed : Bool

namespace TokenState

/-- Before the first token. -/
def start (cs : List Char) : TokenState := ⟨.ofText cs, #[], none, [], [none], true⟩

/-- Brackets are open. -/
def inFlow (s : TokenState) : Bool :=
  match s.keys with
  | _ :: _ :: _ => true
  | _ => false

/-- Add a token. -/
def push (s : TokenState) (token : YamlToken) : TokenState :=
  { s with tokens := s.tokens.push (some token) }

/-- Blocks to close, from the innermost: the block that is left open, those around it, and how
many are closed. Blocks to the right of `column` are closed, all of them if there is no column. -/
def unwind (column : Option Nat) (closed : Nat) :
    Option Nat → List (Option Nat) → Option Nat × List (Option Nat) × Nat
  | some indent, next :: outer =>
    if column.all (· < indent) then unwind column (closed + 1) next outer
    else (some indent, next :: outer, closed)
  | indent, outer => (indent, outer, closed)

/-- Close the blocks to the right of a column. Brackets keep them open. -/
def closeBlocks (s : TokenState) (column : Option Nat) : TokenState :=
  if s.inFlow then s
  else
    let (indent, outer, closed) := unwind column 0 s.indent s.outer
    { s with
      indent
      outer
      tokens := s.tokens ++ Array.replicate closed (some YamlToken.blockEnd) }

/-- A block at a column is further right than the innermost one. -/
def opensAt (s : TokenState) (column : Nat) : Bool := !s.inFlow && s.indent.all (· < column)

/-- Open a block at the column reached, if it is further right than the innermost one. -/
def openBlock (s : TokenState) (token : YamlToken) : TokenState :=
  let column := s.source.place.column
  if s.opensAt column then
    { s.push token with indent := some column, outer := s.indent :: s.outer }
  else s

/-- Give up the keys that can no longer end; there is an error if one of them is required. -/
def dropStale? (s : TokenState) : Option TokenState :=
  let stale (k : KeyStart) := k.isStale s.source.place
  if s.keys.any fun key => key.any stale then
    if s.keys.any fun key => key.any fun k => k.required && stale k then none
    else some { s with keys := s.keys.map fun key => key.filter fun k => !stale k }
  else some s

/-- Give up the key of the innermost bracket; there is an error if it is required. -/
def dropKey? (s : TokenState) : Option TokenState :=
  match s.keys with
  | some k :: keys => if k.required then none else some { s with keys := none :: keys }
  | _ => some s

/-- A key may start here: leave places open for a block and a key. -/
def markKey? (s : TokenState) : Option TokenState :=
  if s.keyAllowed then do
    let s ← s.dropKey?
    let required := !s.inFlow && s.indent == some s.source.place.column
    let key : KeyStart := ⟨s.tokens.size, s.source.place, required⟩
    return { s with tokens := (s.tokens.push none).push none, keys := some key :: s.keys.drop 1 }
  else some s

/-- Move on to another place in the text. -/
def moveTo (s : TokenState) (source : Source) (keyAllowed : Bool) : TokenState :=
  { s with source, keyAllowed }

/-- Pass over some characters. -/
def pass (s : TokenState) (count : Nat) (keyAllowed : Bool) : TokenState :=
  s.moveTo (s.source.skip count) keyAllowed

/-- Pass over blanks, comments and line ends, with what is known then on whether a key may start.
Where one may start outside brackets, tabs do not count as blanks. A byte order mark may start a
line and takes a column. -/
def skipGaps (flow keyAllowed comment : Bool) (place : Place) : List Char → Source × Bool
  | [] => (⟨[], place⟩, keyAllowed)
  | c :: cs =>
    if c == '\n' then skipGaps flow (keyAllowed || !flow) false (place.after c) cs
    else if comment || c == ' ' || (c == '\t' && (flow || !keyAllowed)) ||
        (isByteMark c && place.column == 0) then
      skipGaps flow keyAllowed comment (place.after c) cs
    else if c == '#' then skipGaps flow keyAllowed true (place.after c) cs
    else (⟨c :: cs, place⟩, keyAllowed)

/-- The next token starts here: blanks are passed over, old keys given up and blocks closed. -/
def advance? (s : TokenState) : Option TokenState := do
  let (source, keyAllowed) :=
    skipGaps s.inFlow s.keyAllowed false s.source.place s.source.rest
  let s ← (s.moveTo source keyAllowed).dropStale?
  return s.closeBlocks (some s.source.place.column)

/-- The end of the text. -/
def finish? (s : TokenState) : Option TokenState := (s.closeBlocks none).dropKey?

/-- A directive. -/
def directive? (s : TokenState) : Option TokenState := do
  let s ← (s.closeBlocks none).dropKey?
  let (token, after) ← readDirective? (s.source.skip 1)
  return (s.push token).moveTo after false

/-- The start or end of a document. -/
def divider? (s : TokenState) (token : YamlToken) : Option TokenState := do
  let s ← (s.closeBlocks none).dropKey?
  return (s.push token).pass 3 false

/-- An opening bracket. -/
def openFlow? (s : TokenState) (token : YamlToken) : Option TokenState := do
  let s ← s.markKey?
  return { (s.push token).pass 1 true with keys := none :: s.keys }

/-- A closing bracket. -/
def closeFlow? (s : TokenState) (token : YamlToken) : Option TokenState := do
  let s ← s.dropKey?
  let keys := if s.inFlow then s.keys.drop 1 else s.keys
  return { (s.push token).pass 1 false with keys }

/-- A comma between items. -/
def flowEntry? (s : TokenState) : Option TokenState := do
  let s ← s.dropKey?
  return (s.push .flowEntry).pass 1 true

/-- A dash before an item. -/
def blockEntry? (s : TokenState) : Option TokenState :=
  if s.inFlow || s.keyAllowed then do
    let s ← (s.openBlock .blockSequence).dropKey?
    return (s.push .blockEntry).pass 1 true
  else none

/-- A question mark before a key. -/
def explicitKey? (s : TokenState) : Option TokenState :=
  if s.inFlow || s.keyAllowed then do
    let s ← (s.openBlock .blockMapping).dropKey?
    return (s.push .key).pass 1 (!s.inFlow)
  else none

/-- Fill the open places of a key. A key further right than the innermost block opens one. -/
def fillKey (s : TokenState) (k : KeyStart) : TokenState :=
  let s := { s with
    tokens := s.tokens.setIfInBounds (k.slot + 1) (some .key)
    keys := none :: s.keys.drop 1 }
  if s.opensAt k.place.column then
    { s with
      tokens := s.tokens.setIfInBounds k.slot (some .blockMapping)
      indent := some k.place.column
      outer := s.indent :: s.outer }
  else s

/-- A colon before a value. -/
def value? (s : TokenState) : Option TokenState :=
  match s.keys with
  | some k :: _ => some (((s.fillKey k).push .value).pass 1 false)
  | _ =>
    if s.inFlow || s.keyAllowed then
      some (((s.openBlock .blockMapping).push .value).pass 1 (!s.inFlow))
    else none

/-- The name of a node or a reference to one. -/
def name? (s : TokenState) (token : String → YamlToken) : Option TokenState := do
  let s ← s.markKey?
  let (name, after) ← readName? (s.source.skip 1)
  return (s.push (token name)).moveTo after false

/-- A tag. -/
def tag? (s : TokenState) : Option TokenState := do
  let s ← s.markKey?
  let (token, after) ← readTag? s.inFlow (s.source.skip 1)
  return (s.push token).moveTo after false

/-- A block scalar. -/
def blockScalar? (s : TokenState) (literal : Bool) : Option TokenState := do
  let s ← s.dropKey?
  let run ← readBlock literal s.indent (s.source.skip 1)
  let style := if literal then ScalarStyle.literal else .folded
  return (s.push (.scalar style run.text)).moveTo run.after true

/-- A quoted scalar. -/
def quoted? (s : TokenState) (style : ScalarStyle)
    (read : List Char → Gap → Place → List Char → Option ScalarRun) : Option TokenState := do
  let s ← s.markKey?
  let inner := s.source.skip 1
  let run ← read [] Gap.empty inner.place inner.rest
  return (s.push (.scalar style run.text)).moveTo run.after false

/-- A plain scalar. A key may follow it on a new line. -/
def plain? (s : TokenState) : Option TokenState := do
  let s ← s.markKey?
  let indent := match s.indent with
    | some column => column + 1
    | none => 0
  let run ← readPlain s.inFlow indent [] Gap.empty s.source.place s.source.rest
  return (s.push (.scalar .plain run.text)).moveTo run.after run.broken

/-- One token, which starts with the character `c` and goes on with `cs`. -/
def token? (s : TokenState) (c : Char) (cs : List Char) : Option TokenState :=
  let first := s.source.place.column == 0
  if first && c == '%' then s.directive?
  else if first && isDivider (c :: cs) then
    s.divider? (if c == '-' then .documentStart else .documentEnd)
  else if c == '[' then s.openFlow? .flowSequence
  else if c == '\x7b' then s.openFlow? .flowMapping
  else if c == ']' then s.closeFlow? .flowSequenceEnd
  else if c == '\x7d' then s.closeFlow? .flowMappingEnd
  else if c == ',' then s.flowEntry?
  else if c == '-' && parted cs then s.blockEntry?
  else if c == '?' && (s.inFlow || parted cs) then s.explicitKey?
  else if c == ':' && (s.inFlow || parted cs) then s.value?
  else if c == '*' then s.name? .alias
  else if c == '&' then s.name? .anchor
  else if c == '!' then s.tag?
  else if c == '|' && !s.inFlow then s.blockScalar? true
  else if c == '>' && !s.inFlow then s.blockScalar? false
  else if c == '\'' then s.quoted? .single readSingle
  else if c == '"' then s.quoted? .double readDouble
  else if startsPlain s.inFlow (c :: cs) then s.plain?
  else none

/-- The tokens of the rest of a text, at most `fuel` of them that characters stand for. -/
def readFrom (fuel : Nat) (s : TokenState) : Option (Array (Option YamlToken)) :=
  match s.advance? with
  | none => none
  | some s =>
    match fuel, s.source.rest with
    | _, [] => s.finish?.map TokenState.tokens
    | 0, _ => none
    | fuel + 1, c :: cs =>
      match s.token? c cs with
      | some next => readFrom fuel next
      | none => none

end TokenState

/-- The tokens of a text. Each that characters stand for takes at least one. -/
def tokens? (text : String) : Option (List YamlToken) :=
  let cs := text.toList
  if cs.all isAllowed then
    let cs := normalEnds [] cs
    (TokenState.readFrom cs.length (.start cs)).map fun tokens => tokens.toList.filterMap id
  else none

end QubitAllocation.Yaml
