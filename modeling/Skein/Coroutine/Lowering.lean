import Skein.Coroutine.Breakpoint
import Skein.Expr.Suspension
import Skein.Expr.Text

/-!
# Lowering coroutine bodies

A coroutine body becomes a function of two continuations, one for its value and one for
an error.  To lower a tree is to make code of it that hands its value to a continuation.
Only the paths that can reach a breakpoint, and the re-entries of loops on those paths,
are lowered; every other subtree is copied.

`lower` hands the value of a tree to the success continuation of a scope.  A subtree that
may suspend gets a continuation of its own, a function whose body is the rest of the work.
Such a body runs on whatever stack resumes it, so it is guarded: its errors go to the
failure continuation of the scope.  A loop on a lowered path becomes a function, its head,
and a re-entry becomes a thunk that calls the head.
-/

namespace Skein.Coroutine

open Skein.Expr (weight weightAll weightBindings weightClauses weightCleanup)

/-- Whether a tree has to be lowered: it can suspend, or it can re-enter a lowered
loop. -/
def needsLowering (table : Table) (s : Scope) (e : Expr) : Bool :=
  e.reaches table.has || (s.head.isSome && e.recurs)

/-- A sequence has to be lowered when one of its trees has to be. -/
theorem needsLowering_seq (table : Table) (s : Scope) (es : List Expr) :
  needsLowering table s (.seq es) = es.any (needsLowering table s)
  := by
  rw [needsLowering, Expr.reaches_eq, Expr.recurs_eq]
  simp only [Expr.calledBreakpoint?, Expr.children, Expr.isRecur, Expr.isLoop, Bool.not_false,
    Bool.true_and, Bool.false_or, Option.isSome_none]
  induction es with
  | nil => simp
  | cons e es ih =>
    rw [List.any_cons, List.any_cons, List.any_cons, ← ih, needsLowering]
    cases e.reaches table.has <;> cases e.recurs <;> cases s.head.isSome <;> simp

/-- Whether a tree has the same value whenever it is evaluated: a literal, or a name that
is bound around it. -/
def isFixed (s : Scope) : Expr → Bool
  | .literal _ | .builtin _ => true
  | .var x => s.bound.contains x
  | _ => false

/-- A body whose errors are handed to a continuation. -/
def guarded (body : Expr) (failure : Symbol) : Compiling Expr := do
  let e ← fresh "e"
  return .protect body [⟨.any, e, .send failure (.var e)⟩] none

/-- A function of one value with a guarded body. -/
def receiver (param : Symbol) (body : Expr) (failure : Symbol) : Compiling Expr :=
  return .lambda none [param] (← guarded body failure)

/-- Raise a value, whatever the name `throw` is bound to. -/
def raising (e : Expr) : Expr := .call (.builtin .throw) [e]

/-- Names for the trees whose value can change, and trees that give the same values once
those names are bound. -/
def fixValues (s : Scope) : List Expr → Compiling (List (Symbol × Expr) × List Expr)
  | [] => return ([], [])
  | e :: es => do
    if isFixed s e then
      let (temps, values) ← fixValues s es
      return (temps, e :: values)
    else
      let t ← fresh "t"
      let (temps, values) ← fixValues s es
      return ((t, e) :: temps, .var t :: values)

/-- The thunk that enters the body of a lowered loop anew.  Its values are computed
before it is made. -/
def reentry (head : Head) (s : Scope) (values : List Expr) : Compiling Expr := do
  let (temps, values) ← fixValues s values
  let enter := Expr.lambda none [] (.call (.var head.name) values)
  return .binding temps (.call (.builtin .thunk) [enter])

/-- What a chain of bindings ends in. -/
inductive Tail where
  /-- A body whose value is delivered. -/
  | value (body : Expr)
  /-- Code that is kept as it is. -/
  | code (code : Expr)

/-- The weight of what is still to be lowered in a tail. -/
def Tail.weight : Tail → Nat
  | value body => body.weight
  | code _ => 0

/-- The continuations that end a protected body: code that binds them, and their names. -/
structure Landing where
  bindings : List (Symbol × Expr)
  success : Symbol
  failure : Symbol

/-- The handler of the breakpoint that is called by a tree. -/
def calledHandler? (table : Table) : Expr → Option (Symbol × Handler)
  | .var op => (table.handler? op).map (op, ·)
  | _ => none

mutual

/-- Code that hands the value of a tree to the success continuation. -/
def handOver (table : Table) (s : Scope) (e : Expr) : Compiling Expr :=
  if needsLowering table s e then lower table s e else return .send s.success e
termination_by 3 * e.weight + 1

/-- Code that hands the value of a tree that has to be lowered to the success
continuation. -/
def lower (table : Table) (s : Scope) (e : Expr) : Compiling Expr :=
  match e with
  | .literal _ | .builtin _ | .var _ | .lambda .. => return .send s.success e
  | .call f args =>
    match calledHandler? table f with
    | some (op, handler) =>
      inOrder table s [] args fun s' values =>
        .ofExcept (handler ⟨op, s'.bound, s'.success, s'.failure⟩ values)
    | none =>
      inOrder table s [] (f :: args) fun s' values =>
        return .send s'.success (.call (values.headD .nil) values.tail)
  | .cond test yes no =>
    inOrder table s [] [test] fun s' values =>
      return .cond (values.headD .nil) (← handOver table s' yes) (← handOver table s' no)
  | .seq es => lowerSeq table s [] es
  | .bind bindings body => lowerBindings table s [] bindings (.value body)
  | .loop bindings body => do
    let name ← fresh "loop"
    let names := bindings.map (·.1)
    let inner ← handOver table ((s.inLoop ⟨name, names.length⟩).binding names) body
    let head := Expr.lambda (some name) names (← guarded inner s.failure)
    let enter := Expr.call (.var name) (names.map .var)
    let start ← lowerBindings table (s.binding [name]) [] bindings (.code enter)
    return .binding [(name, head)] start
  | .recur args =>
    match s.head with
    | none => throw (.misplacedRecur e.text)
    | some head =>
      if args.length = head.arity then inOrder table s [] args (reentry head)
      else throw (.recurArity head.arity args.length)
  | .define x e =>
    inOrder table s [] [e] fun s' values =>
      return .send s'.success (.define x (values.headD .nil))
  | .protect body clauses cleanup => do
    if clauses.isEmpty && cleanup.isNone then handOver table s body
    else
      let last ← lowerCleanup table s cleanup
      let s := s.binding (last.bindings.map (·.1))
      let first ← lowerClauses table s last clauses
      let s := s.binding (first.bindings.map (·.1))
      let code ← handOver table (s.continuingWith first.success first.failure) body
      return .binding (last.bindings ++ first.bindings) (← guarded code first.failure)
termination_by 3 * e.weight
decreasing_by
  all_goals
    simp_all only [weight, weightAll, Tail.weight]
    omega

/-- Code that evaluates some trees from left to right and then does `finish` with their
values.  Trees up to the last one that suspends are reduced to values: one that suspends
gets a continuation that receives its value, and any other whose value could change is
bound to a name.  The trees after that one are kept for `finish`. -/
def inOrder (table : Table) (s : Scope) (values : List Expr) (es : List Expr)
    (finish : Scope → List Expr → Compiling Expr) : Compiling Expr :=
  match es with
  | [] => finish s values
  | e :: rest =>
    if !es.any (needsLowering table s) then finish s (values ++ es)
    else if needsLowering table s e then do
      let v ← fresh "v"
      let body ← inOrder table (s.binding [v]) (values ++ [.var v]) rest finish
      let k ← fresh "k"
      let cont ← receiver v body s.failure
      let code ← lower table (s.delivering k) e
      return .binding [(k, cont)] code
    else if isFixed s e then inOrder table s (values ++ [e]) rest finish
    else do
      let t ← fresh "t"
      let body ← inOrder table (s.binding [t]) (values ++ [.var t]) rest finish
      return .binding [(t, e)] body
termination_by 3 * weightAll es + 2
decreasing_by
  all_goals
    have := e.weight_pos
    simp only [weightAll]
    omega

/-- Code for a sequence, of which `before` needs no lowering. -/
def lowerSeq (table : Table) (s : Scope) (before : List Expr) (es : List Expr) :
    Compiling Expr :=
  match es with
  | [] => return .send s.success (.block before)
  | e :: rest =>
    if !needsLowering table s e then lowerSeq table s (before ++ [e]) rest
    else if rest.isEmpty then return .block (before ++ [← lower table s e])
    else do
      let k ← fresh "k"
      let ignored ← fresh "_"
      let after ← handOver table (s.binding [ignored]) (.block rest)
      let cont ← receiver ignored after s.failure
      let code ← lower table (s.delivering k) e
      return .block (before ++ [.binding [(k, cont)] code])
termination_by 3 * weightAll es + 2
decreasing_by
  all_goals
    have := e.weight_pos
    have := Expr.weight_block_le rest
    simp only [weightAll]
    omega

/-- Code for bindings, of which `before` needs no lowering, and what they end in.  The
name of an initial value that suspends is the parameter of the continuation that does the
rest. -/
def lowerBindings (table : Table) (s : Scope) (before bindings : List (Symbol × Expr))
    (tail : Tail) : Compiling Expr :=
  match bindings with
  | [] =>
    match tail with
    | .value body => return .binding before (← handOver table s body)
    | .code code => return .binding before code
  | (x, e) :: rest =>
    if needsLowering table s e then do
      let after ← lowerBindings table (s.binding [x]) [] rest tail
      let k ← fresh "k"
      let cont ← receiver x after s.failure
      let code ← lower table (s.delivering k) e
      return .binding before (.binding [(k, cont)] code)
    else lowerBindings table (s.binding [x]) (before ++ [(x, e)]) rest tail
termination_by 3 * (weightBindings bindings + tail.weight) + 2
decreasing_by
  all_goals
    simp only [weightBindings, Tail.weight]
    grind [Expr.weight_pos]

/-- Continuations that run a cleanup and then deliver a value or raise an error; without
a cleanup, the continuations of the scope. -/
def lowerCleanup (table : Table) (s : Scope) (cleanup : Option Expr) : Compiling Landing :=
  match cleanup with
  | none => return ⟨[], s.success, s.failure⟩
  | some e => do
    let success ← fresh "k"
    let v ← fresh "v"
    let onValue ← handOver table (s.binding [v]) (.block [e, .var v])
    let successCont ← receiver v onValue s.failure
    let failure ← fresh "f"
    let err ← fresh "e"
    let onError ← handOver table (s.binding [err]) (.block [e, raising (.var err)])
    let failureCont ← receiver err onError s.failure
    return ⟨[(success, successCont), (failure, failureCont)], success, failure⟩
termination_by 3 * weightCleanup cleanup + 16
decreasing_by
  all_goals
    simp only [weightCleanup, weight, weightAll, raising, Expr.block]
    omega

/-- A continuation that runs the first clause that accepts an error; without clauses, the
one that the errors go to anyway.  The clause is selected inside a protected body and runs
outside of it, so that its own errors are not handed to the other clauses. -/
def lowerClauses (table : Table) (s : Scope) (last : Landing) (clauses : List (Clause Expr)) :
    Compiling Landing := do
  if clauses.isEmpty then return ⟨[], last.success, last.failure⟩
  else
    let failure ← fresh "f"
    let err ← fresh "e"
    let selected ← lowerBodies table (s.continuingWith last.success last.failure) clauses
    let select := Expr.protect (raising (.var err)) selected none
    let cont ← receiver err (.call select []) last.failure
    return ⟨[(failure, cont)], last.success, failure⟩
termination_by 3 * weightClauses clauses + 3
decreasing_by
  omega

/-- Clauses that return the lowered bodies of some clauses as functions. -/
def lowerBodies (table : Table) (s : Scope) (clauses : List (Clause Expr)) :
    Compiling (List (Clause Expr)) :=
  match clauses with
  | [] => return []
  | ⟨selector, x, e⟩ :: rest => do
    let code ← handOver table (s.binding [x]) e
    return ⟨selector, x, .lambda none [] code⟩ :: (← lowerBodies table s rest)
termination_by 3 * weightClauses clauses + 2
decreasing_by
  all_goals
    have := e.weight_pos
    simp only [weightClauses]
    omega

end

/-- A sequence of trees that need no lowering is a block that is handed over. -/
theorem lowerSeq_of_not_needs {table : Table} {s : Scope} {es : List Expr}
    (hn : ∀ e ∈ es, ¬ needsLowering table s e = true) (before : List Expr) :
  lowerSeq table s before es = return .send s.success (.block (before ++ es))
  := by
  induction es generalizing before with
  | nil => rw [lowerSeq, List.append_nil]
  | cons e es ih =>
    have hn := List.forall_mem_cons.1 hn
    rw [lowerSeq, if_pos (by rw [Bool.not_eq_true', ← Bool.not_eq_true]; exact hn.1), ih hn.2,
      List.append_assoc]
    rfl

/-- Handing over a block is lowering the sequence of its trees. -/
theorem handOver_block {table : Table} {s : Scope} {es : List Expr} (hne : es ≠ []) :
  handOver table s (.block es) = lowerSeq table s [] es
  := by
  rcases es with _ | ⟨e, _ | ⟨e', es⟩⟩
  · exact absurd rfl hne
  · change handOver table s e = _
    rw [handOver, lowerSeq]
    by_cases hn : needsLowering table s e = true
    · rw [if_pos hn, hn, if_neg (by simp), if_pos List.isEmpty_nil]
      exact (bind_pure (lower table s e)).symm
    · rw [if_neg hn, Bool.eq_false_iff.2 hn, if_pos (by simp), lowerSeq]
      rfl
  · change handOver table s (.seq (e :: e' :: es)) = _
    rw [handOver, needsLowering_seq]
    by_cases hn : (e :: e' :: es).any (needsLowering table s) = true
    · rw [if_pos hn, lower]
    · rw [if_neg hn, lowerSeq_of_not_needs]
      · rfl
      · rw [Bool.not_eq_true, List.any_eq_false] at hn
        exact hn

/-- A tree as it is when nothing in it has to be lowered, and otherwise code that hands
its value to the success continuation. -/
def lowerIfNeeded (table : Table) (s : Scope) (e : Expr) : Compiling Expr :=
  if needsLowering table s e then lower table s e else return e

/-- The function of a success and a failure continuation that a coroutine body becomes. -/
def compile (table : Table) (body : Expr) : Compiling Expr := do
  let success ← fresh "k"
  let failure ← fresh "f"
  let code ← handOver table (.ofContinuations success failure) body
  return .lambda none [success, failure] code

end Skein.Coroutine
