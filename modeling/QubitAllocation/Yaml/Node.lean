import QubitAllocation.Yaml.Token

/-!
# YAML nodes

A document is a tree of scalars, sequences and mappings. A node may refer to another one by its
name; the document keeps the named nodes apart, by number, so that a node can refer to one that
holds it. An absent value is the plain scalar without characters.

The number of a name is how many names are known when it is given. A name that is given again takes
the number that the next new name would have; both then have that number. A reference stands for
the last node of the document that has its number.
-/

namespace QubitAllocation

/-- A YAML node. -/
inductive YamlNode where
  | scalar (style : ScalarStyle) (tag : Option String) (text : String)
  | sequence (items : List YamlNode)
  | mapping (entries : List (YamlNode × YamlNode))
  | alias (number : Nat)

/-- The absent value. -/
def YamlNode.empty : YamlNode := .scalar .plain none ""

/-- Where a name was given: the number of the name, and how many nodes before have one. -/
structure NameMark where
  number : Nat
  order : Nat
  deriving DecidableEq, Repr

/-- A document: its node, and the nodes that have a name. -/
structure YamlDocument where
  root : YamlNode
  named : List (NameMark × YamlNode)

namespace YamlDocument

/-- The later of two nodes that have a name, if there is a first one. -/
def later (best : Option (NameMark × YamlNode)) (entry : NameMark × YamlNode) :
    Option (NameMark × YamlNode) :=
  if best.all fun found => found.1.order < entry.1.order then some entry else best

/-- The last node that has a number. -/
def numbered? (d : YamlDocument) (number : Nat) : Option YamlNode :=
  ((d.named.filter fun entry => entry.1.number == number).foldl later none).map Prod.snd

/-- The node that a node is or refers to. -/
def follow (d : YamlDocument) : YamlNode → YamlNode
  | .alias number => (d.numbered? number).getD .empty
  | node => node

/-- The text of a scalar. -/
def text? (d : YamlDocument) (node : YamlNode) : Option String :=
  match d.follow node with
  | .scalar _ _ text => some text
  | _ => none

/-- The text of a scalar that may be a value of the kind `tag`: a plain scalar, or a literal one
with that tag. -/
def untold? (d : YamlDocument) (tag : String) (node : YamlNode) : Option String :=
  match d.follow node with
  | .scalar .plain _ text => some text
  | .scalar .literal (some given) text => if given = tag then some text else none
  | _ => none

/-- The entries of a mapping; the absent value has none. -/
def entries? (d : YamlDocument) (node : YamlNode) : Option (List (YamlNode × YamlNode)) :=
  match d.follow node with
  | .mapping entries => some entries
  | .scalar .plain _ "" => some []
  | _ => none

/-- The name that a local tag gives: what follows its exclamation mark. -/
def localTag? (tag : String) : Option String :=
  match tag.toList with
  | '!' :: name => some (String.ofList name)
  | _ => none

/-- A plain scalar that says nothing. -/
def isNull (text : String) : Bool :=
  text == "" || text == "null" || text == "Null" || text == "NULL" || text == "~"

/-- The name that a node chooses: the text of a scalar, or its local tag if the text is a plain
one that says nothing. -/
def choice? (d : YamlDocument) (node : YamlNode) : Option String :=
  match d.follow node with
  | .scalar style tag text =>
    match tag.bind localTag? with
    | none => some text
    | some name => if style = .plain ∧ isNull text then some name else none
  | _ => none

end YamlDocument

end QubitAllocation
