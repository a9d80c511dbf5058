import Skein.Trampoline

/-!
# Calling continuations

A continuation does not run what it continues at once when a level of the trampoline is
active: the work waits in that level.
-/

namespace Skein.Continuation

open Trampoline (Call)

/-- Let the work of a suspended call wait, or do it. -/
def continueWith (call : Call) (fuel : Nat) (snapshot : Context Value) (k v : Value) :
    Run Value := do
  Run.changeStateIn snapshot .resumed
  Trampoline.resume call fuel (.resumption snapshot k v)

/-- Continue a suspended call with a value. -/
def succeed (call : Call) (fuel : Nat) (snapshot : Context Value) (k : Value)
    (args : List Value) : Run Value := do
  Run.checkArity (.exactly 1) "await continuation" args
  continueWith call fuel snapshot k ((args.head?).getD .nil)

/-- Continue a suspended call with an error: what it is given is made a condition. -/
def fail (call : Call) (fuel : Nat) (snapshot : Context Value) (k : Value)
    (args : List Value) : Run Value := do
  Run.checkArity (.exactly 1) "await failure" args
  let c ← Run.thrown ((args.head?).getD .nil)
  continueWith call fuel snapshot k (.condition c)

/-- Deliver the result of a coroutine: settle its execution, and let the call of the
target wait, or do it. -/
def settle (call : Call) (fuel : Nat) (execution : Nat) (outcome : Outcome)
    (target : Value) (args : List Value) : Run Value := do
  Run.checkArity (.exactly 1) outcome.continuationName args
  let _ ← Run.finish execution outcome
  let snapshot ← Run.capture
  Trampoline.resume call fuel (.delivery snapshot target ((args.head?).getD .nil))

end Skein.Continuation
