import QubitAllocation.Dependency.Basic

/-!
# Programs

A program is a list of statements over declared qubits and classical bits. A statement's call
point is its place in the list. Statements on two qubits, barriers apart, become dependencies.
-/

namespace QubitAllocation

/-- A statement with its qubits and classical bits. -/
structure Statement where
  name : String
  qubits : List Nat
  clbits : List Nat
  deriving DecidableEq, Repr

namespace Statement

/-- The number of operands. -/
def arity (s : Statement) : Nat := s.qubits.length + s.clbits.length

/-- The statement is a barrier. -/
def isBarrier (s : Statement) : Bool := Text.sameIgnoringCase s.name.toList "barrier".toList

/-- A statement on qubits only. -/
def gate (name : String) (qubits : List Nat) : Statement := ⟨name, qubits, []⟩

/-- A controlled-not. -/
def cx (control target : Nat) : Statement := gate "cx" [control, target]

/-- A measurement of a qubit into a classical bit. -/
def measure (qubit clbit : Nat) : Statement := ⟨"measure", [qubit], [clbit]⟩

/-- A barrier. -/
def barrier (qubits : List Nat) : Statement := gate "barrier" qubits

/-- The pair of a two-qubit statement that is no barrier. -/
def pair? (s : Statement) : Option Pair :=
  match s.qubits with
  | [a, b] => if s.isBarrier then none else some ⟨a, b⟩
  | _ => none

/-- Check the operands against the declared numbers, qubits first. -/
def validate (numQubits numClbits : Nat) (s : Statement) : Except AllocError Unit :=
  match s.qubits.find? fun q => numQubits ≤ q with
  | some q => .error (.qubitOutOfRange q numQubits)
  | none =>
    match s.clbits.find? fun c => numClbits ≤ c with
    | some c => .error (.config (.classicalBit s.name c numClbits))
    | none => .ok ()

end Statement

/-- Statements over `numQubits` qubits and `numClbits` classical bits. -/
structure Program where
  numQubits : Nat
  numClbits : Nat
  statements : List Statement
  deriving DecidableEq, Repr

namespace Program

/-- The call point of the next statement. -/
def nextCallPoint (p : Program) : Nat := p.statements.length

/-- Append a statement. -/
def push (p : Program) (s : Statement) : Program := { p with statements := p.statements ++ [s] }

/-- Check every statement; the first fault is reported. -/
def validate (p : Program) : Except AllocError Unit :=
  p.statements.forM (Statement.validate p.numQubits p.numClbits)

/-- One dependency for each two-qubit statement that is no barrier. -/
def dependencies (p : Program) : Dependencies :=
  p.statements.zipIdx.filterMap fun entry =>
    entry.1.pair?.map (Dependency.single entry.2)

end Program

end QubitAllocation
