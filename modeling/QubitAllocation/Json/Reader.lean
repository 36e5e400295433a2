import QubitAllocation.Json.Token

/-!
# Reading JSON

A document is one value. Its tokens are read one after the other; the arrays and objects that are
still open are kept in a list, innermost first, so that a document may be nested as deep as its
text is long.
-/

namespace QubitAllocation

/-- An open array with the items read so far, or an open object with the fields read so far and
the key whose value is due; the latest come first. -/
inductive JsonFrame where
  | array (items : List JsonValue)
  | object (fields : List (Option String × JsonValue)) (key : Option String)

/-- What may come next. -/
inductive JsonPhase where
  | value
  | valueOrEnd
  | keyOrEnd
  | key (fields : List (Option String × JsonValue))
  | colon (fields : List (Option String × JsonValue)) (key : Option String)
  | afterItem (items : List JsonValue)
  | afterField (fields : List (Option String × JsonValue))
  | finished (value : JsonValue)

/-- What may come next, and the containers that are open. -/
structure JsonState where
  phase : JsonPhase
  frames : List JsonFrame

namespace JsonState

/-- Before the first token. -/
def start : JsonState := ⟨.value, []⟩

/-- A value is complete and goes to the innermost container. -/
def deliver (v : JsonValue) : List JsonFrame → JsonState
  | [] => ⟨.finished v, []⟩
  | .array items :: frames => ⟨.afterItem (v :: items), frames⟩
  | .object fields key :: frames => ⟨.afterField ((key, v) :: fields), frames⟩

/-- A value starts with a token. -/
def begin? (frames : List JsonFrame) : JsonToken → Option JsonState
  | .openArray => some ⟨.valueOrEnd, frames⟩
  | .openObject => some ⟨.keyOrEnd, frames⟩
  | .null => some (deliver .null frames)
  | .bool b => some (deliver (.bool b) frames)
  | .number n => some (deliver (.number n) frames)
  | .string content => some (deliver (.string content) frames)
  | _ => none

/-- One token. -/
def step? : JsonState → JsonToken → Option JsonState
  | ⟨.value, frames⟩, token => begin? frames token
  | ⟨.valueOrEnd, frames⟩, .closeArray => some (deliver (.array []) frames)
  | ⟨.valueOrEnd, frames⟩, token => begin? (.array [] :: frames) token
  | ⟨.keyOrEnd, frames⟩, .closeObject => some (deliver (.object []) frames)
  | ⟨.keyOrEnd, frames⟩, .string key => some ⟨.colon [] key, frames⟩
  | ⟨.key fields, frames⟩, .string key => some ⟨.colon fields key, frames⟩
  | ⟨.colon fields key, frames⟩, .colon => some ⟨.value, .object fields key :: frames⟩
  | ⟨.afterItem items, frames⟩, .comma => some ⟨.value, .array items :: frames⟩
  | ⟨.afterItem items, frames⟩, .closeArray => some (deliver (.array items.reverse) frames)
  | ⟨.afterField fields, frames⟩, .comma => some ⟨.key fields, frames⟩
  | ⟨.afterField fields, frames⟩, .closeObject => some (deliver (.object fields.reverse) frames)
  | _, _ => none

/-- Tokens in order. -/
def run? (s : JsonState) : List JsonToken → Option JsonState
  | [] => some s
  | token :: tokens =>
    match s.step? token with
    | some next => next.run? tokens
    | none => none

/-- The document, once it is complete. -/
def value? : JsonState → Option JsonValue
  | ⟨.finished v, []⟩ => some v
  | _ => none

end JsonState

/-- The document that a text holds. -/
def JsonValue.read? (cs : List Char) : Option JsonValue := do
  let tokens ← JsonToken.readAll? cs
  let final ← JsonState.start.run? tokens
  final.value?

end QubitAllocation
