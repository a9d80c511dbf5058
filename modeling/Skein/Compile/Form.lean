import Skein.Compile.Position
import Skein.Compile.SpecialForm
import Skein.Coroutine.Lowering

/-!
# Compiling forms

How a form becomes a tree.  The basic special forms have a kind of node each; the derived
ones are expressed by those nodes.  The body of a coroutine is compiled, checked for
breakpoints in function literals, and lowered as soon as it is met.
-/

namespace Skein.Compile

open Coroutine (Flavors)
open Datum (weight weightAll)

/-- What compiling depends on beside the form. -/
structure Options where
  /-- The flavors of coroutines. -/
  flavors : Flavors
  /-- Whether a breakpoint in a function literal is left to fail when it is called. -/
  deferScopeChecks : Bool

/-- A malformed form. -/
def malformed {α : Type} (fault : FormFault) : Compiling α := throw (.malformed fault)

/-- The symbol that a form is. -/
def symbolOf (part : String) : Datum → Compiling Symbol
  | .scalar (.symbol x) => return x
  | d => malformed (.notA part "symbol" d)

/-- The symbols that the elements of a parameter vector are. -/
def paramsOf : Datum → Compiling (List Symbol)
  | .vector items => items.mapM (symbolOf "fn parameter")
  | d => malformed (.notA "fn parameters" "vector" d)

/-- Check that every other form is a symbol. -/
def checkNames : List Datum → Compiling Unit
  | name :: _ :: rest => do
    let _ ← symbolOf "binding name" name
    checkNames rest
  | _ => return

/-- Check that some forms are pairs of a symbol and any form. -/
def checkPairs (what : String) (items : List Datum) : Compiling Unit :=
  if items.length % 2 = 0 then checkNames items
  else malformed (.requires what "an even number of forms")

/-- Whether a form is a clause of a protected body. -/
def isClause : Datum → Bool
  | .list (.scalar (.symbol head) :: _) => head = "catch" || head = "finally"
  | _ => false

/-- Lower the body of a coroutine, after the check for breakpoints in function
literals. -/
def coroutineOf (o : Options) (table : Coroutine.Table) (body : Expr) : Compiling Expr :=
  match if o.deferScopeChecks then none else body.violation? table.has with
  | some v => throw (.scopeViolation v.op v.form.text)
  | none => Coroutine.compile table body

/-- The tree that enters a frame of dynamic bindings, evaluates a body, and leaves the
frame in any case. -/
def dynamically (depth : Symbol) (bindings : List (Symbol × Expr)) (body : Expr) : Expr :=
  let args := bindings.flatMap fun (x, e) => [.literal (.symbol x), e]
  .binding [(depth, .call (.builtin .pushBindings) args)]
    (.protect body [] (some (.call (.builtin .popBindings) [.var depth])))

mutual

/-- Compile a form. -/
def form (o : Options) (p : Position) (d : Datum) : Compiling Expr :=
  match d with
  | .scalar (.symbol x) => return .var x
  | .scalar _ | .list [] => return .literal d
  | .vector items => do
    let args ← operands o p items
    Compiling.intern "vector"
    return .call (.var "vector") args
  | .list (.scalar (.symbol x) :: args) =>
    match SpecialForm.ofName? x with
    | some s => special o p s args
    | none => return .call (.var x) (← operands o p args)
  | .list (f :: args) => return .call (← form o p.operand f) (← operands o p args)
termination_by 4 * weight d
decreasing_by
  all_goals
    simp only [weight, weightAll]
    omega

/-- Compile some forms whose values are used by the form around them. -/
def operands (o : Options) (p : Position) (ds : List Datum) : Compiling (List Expr) :=
  match ds with
  | [] => return []
  | d :: ds => return (← form o p.operand d) :: (← operands o p ds)
termination_by 4 * weightAll ds + 1
decreasing_by
  all_goals
    have := d.weight_pos
    simp only [weightAll]
    omega

/-- Compile the forms of a body.  All but the last are evaluated for their effects. -/
def statements (o : Options) (p : Position) (ds : List Datum) : Compiling (List Expr) :=
  match ds with
  | [] => return []
  | [d] => return [← form o p d]
  | d :: ds => return (← form o p.operand d) :: (← statements o p ds)
termination_by 4 * weightAll ds + 1
decreasing_by
  all_goals
    have := d.weight_pos
    simp only [weightAll]
    omega

/-- Compile a body. -/
def body (o : Options) (p : Position) (ds : List Datum) : Compiling Expr :=
  return .block (← statements o p ds)
termination_by 4 * weightAll ds + 2

/-- Compile checked pairs of a name and an initial value; when `distinct` holds, no name
may be among those before it, which are `seen`. -/
def bindings (o : Options) (p : Position) (distinct : Bool) (seen : List Symbol)
    (items : List Datum) : Compiling (List (Symbol × Expr)) :=
  match items with
  | .scalar (.symbol x) :: d :: rest => do
    if distinct && seen.contains x then malformed (.repeatedName x)
    else
      let e ← form o p.operand d
      return (x, e) :: (← bindings o p distinct (x :: seen) rest)
  | _ => return []
termination_by 4 * weightAll items + 1
decreasing_by
  all_goals
    have := d.weight_pos
    simp only [weightAll]
    omega

/-- Compile a function literal: its parameters and its body. -/
def function (o : Options) (name : Option Symbol) (ds : List Datum) : Compiling Expr :=
  match ds with
  | [] => malformed (.requires "fn" "a parameter vector")
  | params :: rest => do
    let xs ← paramsOf params
    return .lambda name xs (← body o .top rest)
termination_by 4 * weightAll ds + 2
decreasing_by
  have := params.weight_pos
  simp only [weightAll]
  omega

/-- Compile a coroutine of a flavor. -/
def coroutine (o : Options) (flavor : String) (ds : List Datum) : Compiling Expr := do
  let table ← .ofExcept (o.flavors.table flavor)
  coroutineOf o table (← body o .top ds)
termination_by 4 * weightAll ds + 3

/-- Compile the parts of a catch clause after `catch`. -/
def catchClause (o : Options) (selector : Selector) (ds : List Datum) :
    Compiling (Clause Expr) :=
  match ds with
  | [] => malformed (.requires "catch" "a variable")
  | x :: rest => do
    let x ← symbolOf "catch variable" x
    return ⟨selector, x, ← body o .top rest⟩
termination_by 4 * weightAll ds + 2
decreasing_by
  have := x.weight_pos
  simp only [weightAll]
  omega

/-- Compile the clauses of a protected body; `closed` says that a cleanup came before. -/
def clauses (o : Options) (closed : Bool) (ds : List Datum) :
    Compiling (List (Clause Expr) × Option Expr) :=
  match ds with
  | [] => return ([], none)
  | d :: rest =>
    match d with
    | .list items =>
      if closed then malformed .cleanupNotLast
      else
        match items with
        | .scalar (.symbol "catch") :: .scalar (.keyword kind) :: parts => do
          let clause ← catchClause o (.kind kind) parts
          let (cs, cleanup) ← clauses o false rest
          return (clause :: cs, cleanup)
        | .scalar (.symbol "catch") :: parts => do
          let clause ← catchClause o .any parts
          let (cs, cleanup) ← clauses o false rest
          return (clause :: cs, cleanup)
        | .scalar (.symbol "finally") :: parts => do
          let cleanup ← body o .top parts
          let _ ← clauses o true rest
          return ([], some cleanup)
        | _ => malformed (.notAClause d)
    | _ => malformed (.notAClause d)
termination_by 4 * weightAll ds + 1
decreasing_by
  all_goals
    simp only [weight, weightAll]
    omega

/-- Compile a protected body, which ends where the first clause starts, and its clauses. -/
def protect (o : Options) (ds : List Datum) : Compiling Expr := do
  let e ← body o .top (ds.takeWhile (!isClause ·))
  let (cs, cleanup) ← clauses o false (ds.dropWhile (!isClause ·))
  return .protect e cs cleanup
termination_by 4 * weightAll ds + 3
decreasing_by
  · have := Datum.weightAll_le_of_sublist (List.takeWhile_sublist (!isClause ·) (l := ds))
    omega
  · have := Datum.weightAll_le_of_sublist (List.dropWhile_sublist (!isClause ·) (l := ds))
    omega

/-- Compile pairs of a test and a form to nested conditionals, the last pair first.  The
test `:else` always holds. -/
def choices (o : Options) (p : Position) (ds : List Datum) : Compiling Expr :=
  match ds with
  | test :: d :: rest => do
    let no ← choices o p rest
    let yes ← form o p d
    match test with
    | .scalar (.keyword "else") => return yes
    | test => return .cond (← form o p.operand test) yes no
  | _ => return .nil
termination_by 4 * weightAll ds + 1
decreasing_by
  all_goals
    have := d.weight_pos
    have := test.weight_pos
    simp only [weightAll]
    omega

/-- Compile a conjunction, or a disjunction when `all` fails.  The value of a form that
decides is bound to a name. -/
def shortCircuit (o : Options) (p : Position) (all : Bool) (ds : List Datum) :
    Compiling Expr :=
  match ds with
  | [] => return if all then .literal (.scalar (.bool true)) else .nil
  | [d] => form o p d
  | d :: ds => do
    let t ← fresh (if all then "and" else "or")
    let first ← form o p.operand d
    let rest ← shortCircuit o p all ds
    return .binding [(t, first)]
      (if all then .cond (.var t) rest (.var t) else .cond (.var t) (.var t) rest)
termination_by 4 * weightAll ds + 1
decreasing_by
  all_goals
    have := d.weight_pos
    simp only [weightAll]
    omega

/-- Compile a special form: its kind, and the forms after its first symbol. -/
def special (o : Options) (p : Position) (s : SpecialForm) (args : List Datum) :
    Compiling Expr :=
  match s with
  | .quote =>
    match args with
    | [d] => return .literal d
    | _ => malformed (.requires "quote" "exactly 1 argument")
  | .ifElse =>
    match args with
    | [test, yes] => return .cond (← form o p.operand test) (← form o p yes) .nil
    | [test, yes, no] =>
      return .cond (← form o p.operand test) (← form o p yes) (← form o p no)
    | _ => malformed (.requires "if" "2 or 3 arguments")
  | .sequence => body o p args
  | .bind =>
    match args with
    | [] => malformed (.requires "let" "a binding vector")
    | .vector items :: rest => do
      checkPairs "let bindings" items
      return .binding (← bindings o p false [] items) (← body o p rest)
    | d :: _ => malformed (.notA "let bindings" "vector" d)
  | .loop =>
    match args with
    | [] => malformed (.requires "loop" "a binding vector")
    | .vector items :: rest => do
      checkPairs "loop bindings" items
      let bs ← bindings o p true [] items
      return .loop bs (← body o (.loopBody bs.length) rest)
    | d :: _ => malformed (.notA "loop bindings" "vector" d)
  | .recur =>
    match p.reentry? with
    | none => throw (.misplacedRecur (Datum.list (.symbol "recur" :: args)).text)
    | some arity =>
      if args.length = arity then return .recur (← operands o p args)
      else throw (.recurArity arity args.length)
  | .protect => protect o args
  | .define =>
    match args with
    | [x, d] => return .define (← symbolOf "def name" x) (← form o p.operand d)
    | _ => malformed (.requires "def" "a name and a value")
  | .function =>
    match args with
    | .scalar (.symbol name) :: rest => function o (some name) rest
    | rest => function o none rest
  | .defineFunction =>
    match args with
    | x :: params :: rest => do
      let x ← symbolOf "defn name" x
      return .define x (← function o (some x) (params :: rest))
    | _ => malformed (.requires "defn" "a name and a parameter vector")
  | .async => coroutine o Coroutine.defaultFlavor args
  | .coroutine =>
    match args with
    | .scalar (.keyword flavor) :: rest => coroutine o flavor rest
    | _ => malformed (.requires "coroutine" "a flavor keyword")
  | .cond =>
    if args.length % 2 = 0 then choices o p args
    else malformed (.requires "cond" "an even number of forms")
  | .whenTrue =>
    match args with
    | [] => malformed (.requires "when" "a test")
    | test :: rest => return .cond (← form o p.operand test) (← body o p rest) .nil
  | .whenFalse =>
    match args with
    | [] => malformed (.requires "unless" "a test")
    | test :: rest => return .cond (← form o p.operand test) .nil (← body o p rest)
  | .conjunction => shortCircuit o p true args
  | .disjunction => shortCircuit o p false args
  | .repeatWhile =>
    match args with
    | [] => malformed (.requires "while" "a test")
    | test :: rest => do
      let test ← form o (Position.loopBody 0).operand test
      let es ← operands o (.loopBody 0) rest
      return .loop [] (.cond test (.block (es ++ [.recur []])) .nil)
  | .countUp =>
    match args with
    | [] => malformed (.requires "dotimes" "a binding vector")
    | .vector items :: rest => do
      checkPairs "dotimes binding" items
      match items with
      | [.scalar (.symbol counter), count] => do
        let limit ← fresh "limit"
        let count ← form o p.operand count
        let es ← operands o (.loopBody 1) rest
        Compiling.intern "inc"
        Compiling.intern "<"
        let next := Expr.recur [.call (.var "inc") [.var counter]]
        let test := Expr.call (.var "<") [.var counter, .var limit]
        return .binding [(limit, count)]
          (.loop [(counter, .literal (.scalar (.int 0)))]
            (.cond test (.block (es ++ [next])) .nil))
      | _ => malformed .badCounter
    | d :: _ => malformed (.notA "dotimes binding" "vector" d)
  | .dynamic =>
    match args with
    | [] => malformed (.requires "binding" "a binding vector")
    | .vector items :: rest => do
      checkPairs "binding bindings" items
      let bs ← bindings o p false [] items
      let depth ← fresh "depth"
      return dynamically depth bs (← body o .top rest)
    | d :: _ => malformed (.notA "binding bindings" "vector" d)
termination_by 4 * weightAll args + 4
decreasing_by
  all_goals
    try simp only [weight, weightAll]
    omega

end

/-- Compile a form outside of every loop. -/
def compile (o : Options) (d : Datum) : Compiling Expr := form o .top d

end Skein.Compile
