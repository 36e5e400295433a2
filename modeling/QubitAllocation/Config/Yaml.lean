import QubitAllocation.Config.Basic
import QubitAllocation.Yaml.Reader

/-!
# Configurations in YAML

A configuration is a mapping with the keys `allocator`, `costs`, `mapping` and `verify`, all of
them optional. Other keys are passed over; a key given twice is refused. Names are exact here.
-/

namespace QubitAllocation.Config

/-- The value of a digit in a base up to sixteen. -/
def baseDigit? (base : Nat) (c : Char) : Option Nat :=
  (Quoted.hexValue? c).filter fun n => n < base

/-- A number in a base. -/
def readBase? (base : Nat) (cs : List Char) : Option Nat :=
  if cs.isEmpty then none
  else cs.foldlM (fun acc c => (baseDigit? base c).map fun n => acc * base + n) 0

/-- A number, decimal or with a mark for its base; several digits do not start with a zero. -/
def readNumber? (cs : List Char) : Option Nat :=
  match cs with
  | '0' :: 'x' :: digits => readBase? 16 digits
  | '0' :: 'o' :: digits => readBase? 8 digits
  | '0' :: 'b' :: digits => readBase? 2 digits
  | '0' :: _ :: _ => none
  | digits => readBase? 10 digits

/-- The number of a text, before which a plus sign may stand; a minus sign may not, not even before
zero. -/
def readSigned? : List Char → Option Nat
  | '+' :: cs => readNumber? cs
  | cs => readNumber? cs

/-- The 32-bit number of a scalar. -/
def number? (d : YamlDocument) (node : YamlNode) : Option Nat := do
  let text ← d.untold? "tag:yaml.org,2002:int" node
  (readSigned? text.toList).filter fun n => n ≤ Text.wordMax

/-- The truth value of a scalar. -/
def truth? (d : YamlDocument) (node : YamlNode) : Option Bool := do
  match ← d.untold? "tag:yaml.org,2002:bool" node with
  | "true" | "True" | "TRUE" => some true
  | "false" | "False" | "FALSE" => some false
  | _ => none

/-- The value of a key, if it is given at most once: the outer `none` says that it is repeated. -/
def value? (entries : List (String × YamlNode)) (key : String) : Option (Option YamlNode) :=
  match entries.filter fun entry => entry.1 == key with
  | [] => some none
  | [entry] => some (some entry.2)
  | _ => none

/-- The entries of a mapping by the texts of their keys, which must be scalars. -/
def entriesOf? (d : YamlDocument) (node : YamlNode) : Option (List (String × YamlNode)) := do
  let entries ← d.entries? node
  entries.mapM fun entry => do
    let key ← d.text? entry.1
    return (key, entry.2)

/-- The value of a key, or what stands for it when the key is not given. -/
def field? {α : Type} (entries : List (String × YamlNode)) (key : String)
    (read : YamlNode → Option α) (otherwise : α) : Option α := do
  match ← value? entries key with
  | none => some otherwise
  | some node => read node

/-- The costs of a mapping. -/
def costs? (d : YamlDocument) (node : YamlNode) : Option CostModel := do
  let entries ← entriesOf? d node
  let swap ← field? entries "swap" (number? d) CostModel.standard.swap
  let reverse ← field? entries "reverse" (number? d) CostModel.standard.reverse
  let longCnot ← field? entries "long_cnot" (number? d) CostModel.standard.longCnot
  return ⟨swap, reverse, longCnot⟩

/-- The configuration of a document. -/
def ofYaml? (d : YamlDocument) : Option Config := do
  let entries ← entriesOf? d d.root
  let allocator ← field? entries "allocator"
    (fun node => (d.choice? node).bind AllocatorKind.ofName?) standard.allocator
  let costs ← field? entries "costs" (costs? d) standard.costs
  let placement ← field? entries "mapping"
    (fun node => (d.choice? node).bind Placement.ofName?) standard.placement
  let verify ← field? entries "verify" (truth? d) standard.verify
  return ⟨allocator, costs, placement, verify⟩

/-- The configuration of a text, checked. -/
def readYaml (text : String) : Except AllocError Config :=
  match (YamlDocument.read? text).bind ofYaml? with
  | some c => do
    c.validate
    return c
  | none => .error (.config .yaml)

/-- The text of a configuration. -/
def toYaml (c : Config) : String :=
  s!"allocator: {c.allocator.name}\n" ++ "costs:\n" ++ s!"  swap: {c.costs.swap}\n" ++
    s!"  reverse: {c.costs.reverse}\n" ++ s!"  long_cnot: {c.costs.longCnot}\n" ++
    s!"mapping: {c.placement.name}\n" ++ s!"verify: {c.verify}\n"

end QubitAllocation.Config
