import Skein.Native.Apply

/-!
# Evaluation

What a tree evaluates to.  `Expr.tail` evaluates a tree in the tail of a loop, where it
gives a value or the values to enter the loop anew with; `Expr.eval` evaluates it anywhere
else.  Both are said for any way to call a function, and `Value.call` is the way in which
functions are called.  Fuel bounds the depth of trees and calls and the length of loops; a
computation that runs out of it stops.
-/

namespace Skein

open Trampoline (Call)

/-- What a tree in the tail of a loop gives. -/
inductive TailResult where
  | value (v : Value)
  /-- Enter the loop anew with these values. -/
  | again (vs : List Value)

/-- The value of a tree that is not in the tail of a loop. -/
def TailResult.toValue : TailResult → Run Value
  | value v => return v
  | again _ => Run.raise .error "recur outside of loop"

/-- The bindings inside a function or a loop: each name with its value, as far as there
are values.  Of two equal names the last one counts. -/
def Env.extend (env : Env) (names : List Symbol) (vs : List Value) : Env :=
  (names.zip vs).reverse ++ env

namespace Eval

/-- Repeat a loop: evaluate its body, and go on with the bindings that `enter` makes of
the values it is entered anew with. -/
def repeatLoop (body : Env → Run TailResult) (enter : List Value → Env) :
    (fuel : Nat) → Env → Run TailResult
  | 0, _ => throw .exhausted
  | fuel + 1, env => do
    match ← body env with
    | .value v => return .value v
    | .again vs => repeatLoop body enter fuel (enter vs)

/-- Evaluate the initial values of bindings, each in the scope of those before it. -/
def bindAll (eval : Env → Expr → Run Value) (env : Env) : List (Symbol × Expr) → Run Env
  | [] => return env
  | (x, e) :: rest => do
    let v ← eval env e
    bindAll eval ((x, v) :: env) rest

/-- Evaluate some trees for their effects. -/
def runAll (eval : Env → Expr → Run Value) (env : Env) : List Expr → Run Unit
  | [] => return
  | e :: es => do
    let _ ← eval env e
    runAll eval env es

/-- Hand a condition to the first clause that accepts it. -/
def selectClause (eval : Env → Expr → Run Value) (env : Env) (clauses : List (Clause Expr))
    (c : Condition Value) : Run Value :=
  match clauses.find? (·.selector.accepts (.condition c)) with
  | some clause => eval ((clause.var, .condition c) :: env) clause.body
  | none => Run.raiseCondition c

/-- Evaluate a protected body.  The cleanup runs whether the body and its clauses give a
value or raise a condition, and a condition that it raises counts. -/
def protect (eval : Env → Expr → Run Value) (env : Env) (body : Expr)
    (clauses : List (Clause Expr)) (cleanup : Option Expr) : Run Value := do
  let result ← Run.attempt do
    match ← Run.attempt (eval env body) with
    | .ok v => return v
    | .error c => selectClause eval env clauses c
  match cleanup with
  | none => Run.ofExcept result
  | some e =>
    let _ ← eval env e
    Run.ofExcept result

end Eval

/-- Evaluate a tree in the tail of a loop. -/
def Expr.tail (call : Call) : (fuel : Nat) → Env → Expr → Run TailResult
  | 0, _, _ => throw .exhausted
  | fuel + 1, env, e =>
    let eval := fun env e => do (← tail call fuel env e).toValue
    match e with
    | .literal d => return .value (.ofDatum d)
    | .builtin b => return .value (.native (.builtin b))
    | .var x => return .value (← Run.lookup env x)
    | .lambda name params body =>
      return .value (.closure (← Run.freshId) name params body env)
    | .call f args => do
      let f ← eval env f
      let vs ← args.mapM (eval env)
      return .value (← call f vs)
    | .cond test yes no => do
      let v ← eval env test
      tail call fuel env (if v.isTruthy then yes else no)
    | .seq es =>
      match es.getLast? with
      | none => return .value .nil
      | some last => do
        Eval.runAll eval env es.dropLast
        tail call fuel env last
    | .bind bindings body => do
      let inner ← Eval.bindAll eval env bindings
      tail call fuel inner body
    | .loop bindings body => do
      let first ← Eval.bindAll eval env bindings
      Eval.repeatLoop (tail call fuel · body) (env.extend (bindings.map (·.1))) fuel first
    | .recur args => return .again (← args.mapM (eval env))
    | .protect body clauses cleanup =>
      return .value (← Eval.protect eval env body clauses cleanup)
    | .define x e => do
      let v ← eval env e
      Run.define x v
      return .value v

/-- Evaluate a tree. -/
def Expr.eval (e : Expr) (call : Call) (fuel : Nat) (env : Env) : Run Value := do
  (← e.tail call fuel env).toValue

/-- Call a function literal: its name is bound to the function itself, and its parameters
to the arguments. -/
def Eval.enterClosure (call : Call) (fuel : Nat) (f : Value) (name : Option Symbol)
    (params : List Symbol) (body : Expr) (env : Env) (args : List Value) : Run Value := do
  Run.checkArity (.exactly params.length) (name.getD "fn") args
  let scope : Env := match name with
    | some x => (x, f) :: env
    | none => env
  body.eval call fuel (scope.extend params args)

/-- Call a value. -/
def Value.call : (fuel : Nat) → Call
  | 0, _, _ => throw .exhausted
  | fuel + 1, f, args =>
    match f with
    | .native g => g.apply (call fuel) fuel args
    | .closure _ name params body env =>
      Eval.enterClosure (call fuel) fuel f name params body env args
    | f => do
      Run.raise .typeError ("cannot call a " ++ f.typeName ++ ": " ++ (← Run.textOf f))

/-- Evaluate a tree outside of every scope, in a level of its own. -/
def Expr.evalTop (e : Expr) (fuel : Nat) : Run Value :=
  Trampoline.bounce (Value.call fuel) fuel (e.eval (Value.call fuel) fuel [])

end Skein
