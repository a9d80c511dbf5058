import Skein.Expr
import Skein.Native.Primitive
import Skein.Value.Condition
import Skein.Value.Context
import Skein.Value.Execution
import Skein.Value.Script

/-!
# Values

What expressions evaluate to.  Functions, thunks and atoms are values with an identity:
a number that no other value of their kind has.  The contents of atoms and the states of
executions are kept apart, so that a value holds only their numbers.
-/

namespace Skein

/-- The functions of the virtual clock. -/
inductive TimerOp where
  /-- Deliver a value after some time. -/
  | delay
  /-- Deliver an error after some time. -/
  | failAfter
  /-- Deliver the time at once. -/
  | now
deriving DecidableEq, Repr, Inhabited

/-- Functions that keep a journal of what happens to them. -/
inductive Instrument where
  /-- Write the result of a coroutine to the journal. -/
  | record (outcome : Outcome)
  /-- Write the dynamic binding of a name to the journal, in each of a chain of thunks. -/
  | probe (x : Symbol) (left : Nat)
  /-- The rest of a chain of thunks. -/
  | countdown (left : Nat)
  /-- Do the work of a script. -/
  | perform (work : Script)
  /-- An operation that delivers what the stage of the machine says. -/
  | operation
  /-- What `await` comes to when a body is evaluated without suspending: what the stage
  says is its value. -/
  | answer
  /-- Note a result on the stage. -/
  | receive (outcome : Outcome)

/-- Functions that are not written in the language, where `α` is the type of values.
Those that are made while a program runs have a number. -/
inductive Native (α : Type) where
  /-- A function that compiled trees hold. -/
  | builtin (b : Builtin)
  /-- A function that a program has from the start. -/
  | primitive (p : Primitive)
  /-- What the name of a breakpoint is bound to outside coroutine bodies. -/
  | sentinel (op : Symbol)
  /-- The continuation that an operation calls with a value. -/
  | awaitContinuation (id : Nat) (snapshot : Context α) (k : α)
  /-- The continuation that an operation calls with an error. -/
  | awaitFailure (id : Nat) (snapshot : Context α) (k : α)
  /-- The continuation that a coroutine calls with its result. -/
  | settle (id : Nat) (execution : Nat) (outcome : Outcome) (target : α)
  /-- A function without parameters that runs in a context. -/
  | inContext (id : Nat) (snapshot : Context α) (f : α)
  /-- A function of the virtual clock. -/
  | timer (op : TimerOp)
  /-- A function that keeps a journal. -/
  | instrument (id : Nat) (i : Instrument)

/-- What expressions evaluate to. -/
inductive Value where
  | scalar (s : Scalar)
  | list (items : List Value)
  | vector (items : List Value)
  /-- A function literal and the bindings around it. -/
  | closure (id : Nat) (name : Option Symbol) (params : List Symbol) (body : Expr)
      (env : List (Symbol × Value))
  | native (f : Native Value)
  | condition (c : Condition Value)
  /-- A step that waits for a trampoline: a function without parameters. -/
  | thunk (id : Nat) (resume : Value)
  | atom (location : Nat)
  | execution (id : Nat)

instance : Inhabited Value := ⟨.scalar .nil⟩

/-- The bindings around an expression, the innermost first. -/
abbrev Env := List (Symbol × Value)

/-- The name of a function of the clock. -/
def TimerOp.name : TimerOp → String
  | delay => "delay"
  | failAfter => "fail-after"
  | now => "now"

/-- The name of a function that keeps a journal. -/
def Instrument.name : Instrument → String
  | record _ => "record"
  | probe .. => "probe"
  | countdown _ => "step"
  | perform _ => "work"
  | operation => "operation"
  | answer => "answer"
  | receive outcome => match outcome with
    | .completed => "receive-value"
    | .failed => "receive-error"

/-- The name of the continuation for a result. -/
def Outcome.continuationName : Outcome → String
  | completed => "resolve"
  | failed => "reject"

/-- The name of a native function. -/
def Native.name {α : Type} : Native α → String
  | builtin b => b.name
  | primitive p => p.name
  | sentinel op => op
  | awaitContinuation .. => "await-continuation"
  | awaitFailure .. => "await-failure"
  | settle _ _ outcome _ => outcome.continuationName
  | inContext .. => "in-context"
  | timer op => op.name
  | instrument _ i => i.name

namespace Value

/-- The empty value. -/
def nil : Value := .scalar .nil

/-- A truth value. -/
def bool (b : Bool) : Value := .scalar (.bool b)

/-- An integer. -/
def int (n : Int64) : Value := .scalar (.int n)

/-- A float. -/
def float (x : Float) : Value := .scalar (.float x)

/-- A string. -/
def string (s : String) : Value := .scalar (.string s)

/-- A symbol. -/
def symbol (x : Symbol) : Value := .scalar (.symbol x)

/-- A keyword. -/
def keyword (name : String) : Value := .scalar (.keyword name)

mutual

/-- The value of a quoted datum. -/
def ofDatum : Datum → Value
  | .scalar s => .scalar s
  | .list items => .list (ofData items)
  | .vector items => .vector (ofData items)

/-- The values of some quoted data. -/
def ofData : List Datum → List Value
  | [] => []
  | d :: ds => ofDatum d :: ofData ds

end

/-- The name of a value's type. -/
def typeName : Value → String
  | scalar s => s.typeName
  | list _ => "list"
  | vector _ => "vector"
  | closure .. => "function"
  | native _ => "native-function"
  | condition _ => "condition"
  | thunk .. => "thunk"
  | atom _ => "atom"
  | execution _ => "execution"

/-- Only `nil` and `false` count as false. -/
def isTruthy : Value → Bool
  | scalar s => s.isTruthy
  | _ => true

/-- Whether a value is `nil`. -/
def isNil : Value → Bool
  | scalar .nil => true
  | _ => false

/-- Whether a value is a function. -/
def isCallable : Value → Bool
  | closure .. | native _ => true
  | _ => false

/-- Whether a value is a thunk. -/
def isThunk : Value → Bool
  | thunk .. => true
  | _ => false

/-- The symbol that a value is. -/
def symbol? : Value → Option Symbol
  | scalar (.symbol x) => some x
  | _ => none

/-- The elements of a sequence; the empty value has none. -/
def elements? : Value → Option (List Value)
  | list items | vector items => some items
  | scalar .nil => some []
  | _ => none

/-- The integer that a value is. -/
def int? : Value → Option Int64
  | scalar (.int n) => some n
  | _ => none

/-- The number that a value is, as a float. -/
def float? : Value → Option Float
  | scalar (.int n) => some n.toFloat
  | scalar (.float x) => some x
  | _ => none

end Value

/-- Whether a clause accepts a value. -/
def Selector.accepts : Selector → Value → Bool
  | any, _ => true
  | kind name, .condition c => c.kind.isA name
  | kind _, _ => false

end Skein
