import Skein.Native.Arithmetic
import Skein.Native.Atom
import Skein.Native.Builtin
import Skein.Native.Comparison
import Skein.Native.Condition
import Skein.Native.Continuation
import Skein.Native.Coroutine
import Skein.Native.Instrument
import Skein.Native.Sequence
import Skein.Native.Test
import Skein.Native.Text
import Skein.Native.Timer

/-!
# Applying native functions
-/

namespace Skein

open Trampoline (Call)

/-- Apply a primitive; its arity is checked first. -/
def Primitive.apply (p : Primitive) (call : Call) (fuel : Nat) (args : List Value) :
    Run Value := do
  Run.checkArity p.arity p.name args
  match p with
  | arithmetic op => op.apply args
  | comparison op => op.apply args
  | atom op => op.apply call args
  | sequence op => op.apply args
  | condition op => op.apply args
  | coroutine op => op.apply call fuel args
  | text op => op.apply args
  | test op => return op.apply args

/-- Apply a native function. -/
def Native.apply (f : Native Value) (call : Call) (fuel : Nat) (args : List Value) :
    Run Value :=
  match f with
  | builtin b => b.apply args
  | primitive p => p.apply call fuel args
  | sentinel op => Run.scopeViolation op args
  | awaitContinuation _ snapshot k => Continuation.succeed call fuel snapshot k args
  | awaitFailure _ snapshot k => Continuation.fail call fuel snapshot k args
  | settle _ execution outcome target =>
    Continuation.settle call fuel execution outcome target args
  | inContext _ snapshot g => do
    let next ← Run.entering snapshot (call g [])
    Trampoline.inContext snapshot next
  | timer op => op.apply call args
  | instrument _ i => i.apply call fuel args

end Skein
