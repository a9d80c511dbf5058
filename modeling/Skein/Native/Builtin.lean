import Skein.Native.Argument

/-!
# Functions that compiled trees hold

They enter and leave frames of dynamic bindings, make thunks, raise conditions, and make
the two continuations that a suspended call hands to its operation.  Such a continuation
is called in the context in which it was made, whoever calls it.
-/

namespace Skein.Builtin

/-- The bindings of a frame, from names and values in turn. -/
def bindings : List Value → Run (List (Symbol × Value))
  | x :: v :: rest => do
    match x.symbol? with
    | some name => return (name, v) :: (← bindings rest)
    | none =>
      Run.raise .typeError ("push-bindings: expected a symbol, got " ++ x.typeName)
  | _ => return []

/-- A depth as a value.  No machine holds more frames than an integer counts. -/
def depthValue (depth : Nat) : Run Value :=
  if depth ≤ Int64.maxValue.toNatClampNeg then return .int (Int64.ofNat depth)
  else Run.fault "too many binding frames"

/-- Enter a frame of dynamic bindings; the depth to leave it by. -/
def enterFrame (args : List Value) : Run Value :=
  if args.length % 2 = 0 then do
    let depth ← Run.pushFrame (← bindings args)
    depthValue depth
  else Run.raise .arityError "push-bindings: expected name/value pairs"

/-- Leave the frames of dynamic bindings above a depth. -/
def leaveFrames (v : Value) : Run Value := do
  let depth ← Argument.int v
  if depth < 0 then Run.raise .typeError "pop-bindings: negative depth"
  else
    Run.popFrames depth.toInt.toNat
    return .nil

/-- Suspend: the continuation for a value, which keeps the context. -/
def suspend (k : Value) : Run Value := do
  let snapshot ← Run.capture
  Run.changeStateIn snapshot .suspended
  Run.native (.awaitContinuation · snapshot k)

/-- The continuation for an error, which keeps the context. -/
def failure (k : Value) : Run Value := do
  let snapshot ← Run.capture
  Run.native (.awaitFailure · snapshot k)

/-- Apply a function that compiled trees hold. -/
def apply (b : Builtin) (args : List Value) : Run Value :=
  match b, args with
  | .pushBindings, vs => enterFrame vs
  | .popBindings, [v] => leaveFrames v
  | .thunk, [v] => Argument.toThunk v
  | .throw, [v] => Run.throwValue v
  | .awaitResume, [v] => suspend v
  | .awaitReject, [v] => failure v
  | b, vs => do
    Run.checkArity (.exactly 1) b.name vs
    return .nil

end Skein.Builtin
