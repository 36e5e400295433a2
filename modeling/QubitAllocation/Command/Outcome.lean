import QubitAllocation.Error

/-!
# Outcomes of commands

What a command prints and how it ends. A refusal is a chain of messages from the outermost to the
cause, and is printed on one line; what was printed before it stays. A look-up beyond the end of a
table is a crash and is told apart by its exit status.
-/

namespace QubitAllocation

/-- Why a command fails. -/
inductive Failure where
  | crash
  | told (chain : List String)
  deriving DecidableEq, Repr

namespace Failure

/-- A device error with its cause. -/
def ofDevice : DeviceError → Failure
  | .outOfRange => .crash
  | .unreadable reason => .told [(DeviceError.unreadable reason).message, reason]
  | e => .told [e.message]

/-- Put a message in front of a chain. -/
def within (context : String) : Failure → Failure
  | crash => crash
  | told chain => told (context :: chain)

/-- An allocation error with its cause. -/
def ofAlloc : AllocError → Failure
  | .outOfRange => .crash
  | .device cause => (ofDevice cause).within (AllocError.device cause).message
  | e => .told [e.message]

end Failure

/-- The outcome of a device question, with a message in front of a refusal. -/
def deviceOutcome {α : Type} (context : String) (r : Except DeviceError α) : Except Failure α :=
  r.mapError fun e => (Failure.ofDevice e).within context

/-- The outcome of an allocation question. -/
def allocOutcome {α : Type} (r : Except AllocError α) : Except Failure α :=
  r.mapError Failure.ofAlloc

/-- Exit status and printed texts. -/
structure Outcome where
  status : Nat
  out : String
  err : String
  deriving DecidableEq, Repr

/-- The outcome of a command that has printed `printed` before its result is known. -/
def Outcome.ofResult (printed : String) : Except Failure String → Outcome
  | .ok text => ⟨0, printed ++ text, ""⟩
  | .error .crash => ⟨101, printed, ""⟩
  | .error (.told chain) => ⟨1, printed, "Error: " ++ String.intercalate ": " chain ++ "\n"⟩

end QubitAllocation
