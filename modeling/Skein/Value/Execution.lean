/-!
# Executions

Each start of a coroutine is an execution.  Its state changes while the coroutine runs,
until a result has been delivered; after that it is kept.
-/

namespace Skein

/-- The two kinds of results. -/
inductive Outcome where
  | completed
  | failed
deriving DecidableEq, Repr, Inhabited

/-- The state of an execution. -/
inductive ExecutionState where
  /-- The body is being evaluated. -/
  | running
  /-- The rest of the body has been handed to an operation. -/
  | suspended
  /-- The operation has called a continuation, whose work may still be waiting. -/
  | resumed
  /-- A result has been delivered. -/
  | settled (outcome : Outcome)
deriving DecidableEq, Repr, Inhabited

namespace ExecutionState

/-- The name of a state. -/
def name : ExecutionState → String
  | running => "running"
  | suspended => "suspended"
  | resumed => "resumed"
  | settled .completed => "completed"
  | settled .failed => "failed"

/-- Whether a result has been delivered. -/
def isTerminal : ExecutionState → Bool
  | settled _ => true
  | _ => false

/-- The state after a change to `next`. -/
def change (state next : ExecutionState) : ExecutionState :=
  if state.isTerminal then state else next

/-- A settled execution stays as it is. -/
theorem change_of_isTerminal {state : ExecutionState} (h : state.isTerminal)
    (next : ExecutionState) :
  state.change next = state
  := by
  simp [change, h]

end ExecutionState

end Skein
