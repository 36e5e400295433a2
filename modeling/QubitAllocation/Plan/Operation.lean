/-!
# Pairs and operations

A `Pair` names the two logical qubits of a wanted gate. An `Operation` is a gate that is emitted
for one: along a native edge, against one, over a bridge, or a swap on the way. Operands are
logical qubits; a bridge is a physical one.
-/

namespace QubitAllocation

/-- An ordered pair of logical qubits. -/
structure Pair where
  control : Nat
  target : Nat
  deriving DecidableEq, Repr

/-- The text of a pair. -/
def Pair.text (p : Pair) : String := s!"({p.control}, {p.target})"

/-- An emitted gate. -/
inductive Operation where
  | cnot (a b : Nat)
  | rev (a b : Nat)
  | swap (a b : Nat)
  | longCnot (a b bridge : Nat)
  deriving DecidableEq, Repr

namespace Operation

/-- The two logical operands. -/
def operands : Operation → Nat × Nat
  | cnot a b | rev a b | swap a b | longCnot a b _ => (a, b)

/-- The operation is a swap. -/
def isSwap : Operation → Bool
  | swap _ _ => true
  | _ => false

/-- The short name of the gate. -/
def name : Operation → String
  | cnot _ _ => "cnot"
  | rev _ _ => "rev"
  | swap _ _ => "swap"
  | longCnot _ _ _ => "lcnot"

/-- The text of an operation. -/
def text (op : Operation) : String :=
  let call := op.name ++ "(" ++ toString op.operands.1 ++ ", " ++ toString op.operands.2 ++ ")"
  match op with
  | longCnot _ _ bridge => call ++ s!" via {bridge}"
  | _ => call

end Operation

/-- The operations emitted for one call point. -/
structure Step where
  callPoint : Nat
  ops : List Operation
  deriving DecidableEq, Repr

/-- The number of swaps of a step. -/
def Step.numSwaps (s : Step) : Nat := s.ops.countP Operation.isSwap

end QubitAllocation
