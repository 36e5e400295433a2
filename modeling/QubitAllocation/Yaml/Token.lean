/-!
# YAML tokens

A document is a sequence of tokens. Where blocks begin and end by indentation, and where a key
begins, tokens are made that no character stands for.
-/

namespace QubitAllocation

/-- How a scalar is written: without quotes, in single or double quotes, or as a block of lines
that are kept or folded. -/
inductive ScalarStyle where
  | plain
  | single
  | double
  | literal
  | folded
  deriving DecidableEq, Repr

/-- A token of a YAML text. What follows the handle of a tag is `none` if its bytes are no text. -/
inductive YamlToken where
  | version (major minor : Nat)
  | tagAlias (handle : String) (stem : Option String)
  | documentStart
  | documentEnd
  | blockSequence
  | blockMapping
  | blockEnd
  | flowSequence
  | flowSequenceEnd
  | flowMapping
  | flowMappingEnd
  | blockEntry
  | flowEntry
  | key
  | value
  | alias (name : String)
  | anchor (name : String)
  | tag (handle : String) (suffix : Option String)
  | scalar (style : ScalarStyle) (text : String)
  deriving DecidableEq, Repr

end QubitAllocation
