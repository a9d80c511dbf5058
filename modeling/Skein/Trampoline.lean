import Skein.Machine

/-!
# The trampoline

A thunk is a step that somebody else takes: `force` takes one step after another until a
value comes that is no thunk.  `bounce` does so in a level of its own: it forces what a
computation gives and then does the work that waits in the level, the first item first,
with what is added meanwhile.  `resume` lets work wait in the innermost level, and does it
at once when there is none.

Everything here is said for any way `call` to call a function.  Loops are bounded by a
fuel, and stop the computation when it runs out.
-/

namespace Skein.Trampoline

/-- How a function is called with some arguments. -/
abbrev Call := Value → List Value → Run Value

/-- Take steps until a value comes that is no thunk. -/
def force (call : Call) : (fuel : Nat) → Value → Run Value
  | 0, _ => throw .exhausted
  | fuel + 1, v =>
    match v with
    | .thunk _ resume => do
      Run.step
      let next ← call resume []
      force call fuel next
    | v => return v

/-- Make a thunk take its step, and the thunks that come of it theirs, in a context. -/
def inContext (snapshot : Context Value) : Value → Run Value
  | .thunk _ resume => do Run.thunk (← Run.native (.inContext · snapshot resume))
  | v => return v

/-- Do some work that waited. -/
def perform (call : Call) : Work → Run Value
  | .plain f => call f []
  | .delivery snapshot f arg => Run.entering snapshot (call f [arg])
  | .resumption snapshot k arg => do
    let next ← Run.entering snapshot do
      Run.changeStateIn snapshot .running
      call k [arg]
    inContext snapshot next

/-- Do the work that waits in the innermost level; the first condition that is raised,
if `first` is none. -/
def runWaiting (call : Call) : (fuel : Nat) → (first : Option (Condition Value)) →
    Run (Option (Condition Value))
  | 0, _ => throw .exhausted
  | fuel + 1, first => do
    match ← Run.dequeue with
    | none => return first
    | some work =>
      let result ← Run.attempt do
        Run.step
        let v ← perform call work
        force call fuel v
      match first, result with
      | none, .error c => runWaiting call fuel (some c)
      | first, _ => runWaiting call fuel first

/-- Run a computation in a level of its own: its value is forced, and then the work that
waits in the level is done.  A condition that the computation raises comes before one that
the work raises. -/
def bounce (call : Call) (fuel : Nat) (start : Run Value) : Run Value := do
  Run.openLevel
  let result ← Run.attempt do
    let v ← start
    force call fuel v
  let late ← runWaiting call fuel none
  Run.closeLevel
  match result, late with
  | .ok v, none => return v
  | .ok _, some c => Run.raiseCondition c
  | .error c, _ => Run.raiseCondition c

/-- Drive a value in a level of its own. -/
def unwind (call : Call) (fuel : Nat) (v : Value) : Run Value := bounce call fuel (pure v)

/-- Let work wait in the innermost level; without one, do it now in a level of its own. -/
def resume (call : Call) (fuel : Nat) (work : Work) : Run Value := do
  if ← Run.enqueue work then return .nil
  else bounce call fuel (perform call work)

/-- Start a coroutine: call it with two continuations in a level of its own and in the
current context with a new execution.  A condition that the call raises before a result
has been delivered is handed to the second continuation. -/
def start (call : Call) (fuel : Nat) (coroutine resolve reject : Value) : Run Nat := do
  let id ← Run.newExecution
  let success ← Run.native (.settle · id .completed resolve)
  let failure ← Run.native (.settle · id .failed reject)
  let snapshot := (← Run.capture).driving id
  let _ ← Run.entering snapshot <| bounce call fuel do
    match ← Run.attempt (call coroutine [success, failure]) with
    | .ok v => return v
    | .error c =>
      if (← Run.executionState id).isTerminal then Run.raiseCondition c
      else call failure [.condition c]
  return id

end Skein.Trampoline
