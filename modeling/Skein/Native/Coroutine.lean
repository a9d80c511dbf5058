import Skein.Native.Argument
import Skein.Trampoline

/-!
# Coroutines

The functions that start coroutines, and the building blocks of operations for them.
-/

namespace Skein

/-- The condition of a breakpoint that is called outside a coroutine body. -/
def Run.scopeViolation (op : Symbol) (args : List Value) : Run Value := do
  let texts ← args.mapM Run.textOf
  Run.raiseWith .scopeViolation
    ("\x60" ++ op ++ "\x60 called outside a coroutine body: ("
      ++ Text.spaced (op :: texts) ++ ")")
    (.list args)

namespace CoroutineOp

open Trampoline (Call)

/-- The name of the state of an execution as a keyword. -/
def stateOf (id : Nat) : Run Value := return .keyword (← Run.executionState id).name

/-- Apply a function for coroutines. -/
def apply (op : CoroutineOp) (call : Call) (fuel : Nat) (args : List Value) : Run Value :=
  let name := op.name
  match op, args with
  | .run, [coroutine, resolve, reject] => do
    Argument.checkFunction name coroutine
    Argument.checkFunction name resolve
    Argument.checkFunction name reject
    return .execution (← Trampoline.start call fuel coroutine resolve reject)
  | .thunk, [f] => Argument.toThunk f
  | .unwind, [v] => Trampoline.unwind call fuel v
  | .resolved, [v, k, _] => call k [v]
  | .rejected, [v, _, f] => call f [v]
  | .state, [] => do
    match (← Run.capture).execution with
    | some id => stateOf id
    | none => return .nil
  | .state, .execution id :: _ => stateOf id
  | .state, v :: _ =>
    Run.raise .typeError (name ++ ": expected execution, got " ++ v.typeName)
  | .await, vs => Run.scopeViolation name vs
  | _, _ => return .nil

end CoroutineOp

end Skein
