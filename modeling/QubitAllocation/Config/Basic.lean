import QubitAllocation.Placement.Basic
import QubitAllocation.Plan.Cost
import QubitAllocation.Text.Blank

/-!
# Configurations

Which strategy runs, what operations cost, how the first mapping is found and whether a solution
is replayed. Names are read whatever the case of their ASCII letters, and some have short forms.
Costs and the strategy can be set by environment variables.
-/

namespace QubitAllocation

/-- The strategies. -/
inductive AllocatorKind where
  | dynprog
  | greedy
  | pathGuided
  | direct
  deriving DecidableEq, Repr

namespace AllocatorKind

/-- Every strategy, in the order in which they are listed. -/
def all : List AllocatorKind := [dynprog, greedy, pathGuided, direct]

/-- The name of a strategy. -/
def name : AllocatorKind → String
  | dynprog => "dynprog"
  | greedy => "greedy"
  | pathGuided => "path-guided"
  | direct => "direct"

/-- The strategy of a name in lower case, short forms included. -/
def ofLower? : String → Option AllocatorKind
  | "dynprog" | "optimal" | "dp" => some dynprog
  | "greedy" => some greedy
  | "path-guided" | "path_guided" | "pathguided" => some pathGuided
  | "direct" => some direct
  | _ => none

/-- The strategy that a text names. -/
def read (s : String) : Except AllocError AllocatorKind :=
  let lower := String.ofList (s.toList.map Char.toLower)
  match ofLower? lower with
  | some kind => .ok kind
  | none => .error (.config (.unknownAllocator lower))

/-- The strategy with exactly this name. -/
def ofName? (s : String) : Option AllocatorKind := all.find? fun kind => kind.name == s

end AllocatorKind

namespace Placement

/-- Every way to find a first mapping. -/
def all : List Placement := [weighted, identity]

/-- The name of a way to find a first mapping. -/
def name : Placement → String
  | weighted => "weighted"
  | identity => "identity"

/-- The way of a name in lower case, short forms included. -/
def ofLower? : String → Option Placement
  | "weighted" => some weighted
  | "identity" | "trivial" => some identity
  | _ => none

/-- The way that a text names. -/
def read (s : String) : Except AllocError Placement :=
  let lower := String.ofList (s.toList.map Char.toLower)
  match ofLower? lower with
  | some placement => .ok placement
  | none => .error (.config (.unknownFinder lower))

/-- The way with exactly this name. -/
def ofName? (s : String) : Option Placement := all.find? fun placement => placement.name == s

end Placement

/-- A complete configuration. -/
structure Config where
  allocator : AllocatorKind
  costs : CostModel
  placement : Placement
  verify : Bool
  deriving DecidableEq, Repr

namespace Config

/-- The configuration when nothing is said. -/
def standard : Config := ⟨.dynprog, .standard, .weighted, true⟩

/-- A swap must cost something. -/
def validate (c : Config) : Except AllocError Unit :=
  if c.costs.swap = 0 then .error (.config .zeroSwapCost) else .ok ()

/-- A change of the configuration that keeps what it has set when it fails. -/
abbrev Update := ExceptT AllocError (StateM Config)

/-- The cost that a variable gives; blanks around it do not matter. -/
def costOf (key raw : String) : Except AllocError Nat :=
  match Text.readWord? (Text.trim raw.toList) with
  | some cost => .ok cost
  | none => .error (.config (.invalidCost key raw))

/-- Set a cost from a variable, if it is there. -/
def setCost (env : String → Option String) (key : String) (set : Nat → Config → Config) :
    Update Unit :=
  match env key with
  | none => pure ()
  | some raw => do
    let cost ← ExceptT.mk (pure (costOf key raw))
    modify (set cost)

/-- Set costs and strategy from variables, then check the outcome. -/
def setFromEnv (env : String → Option String) : Update Unit := do
  setCost env "QALLOC_SWAP_COST" fun n c => { c with costs.swap := n }
  setCost env "QALLOC_REV_COST" fun n c => { c with costs.reverse := n }
  setCost env "QALLOC_LCX_COST" fun n c => { c with costs.longCnot := n }
  match env "QALLOC_ALLOCATOR" with
  | none => pure ()
  | some raw => do
    let kind ← ExceptT.mk (pure (AllocatorKind.read raw))
    modify fun c => { c with allocator := kind }
  let c ← get
  ExceptT.mk (pure c.validate)

/-- The outcome of setting from variables, and the configuration after it. -/
def applyEnv (c : Config) (env : String → Option String) : Except AllocError Unit × Config :=
  (setFromEnv env).run.run c

end Config

end QubitAllocation
