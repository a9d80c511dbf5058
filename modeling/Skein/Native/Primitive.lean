import Skein.Native.Arity

/-!
# Primitives

The functions that a program has from the start, in groups, with their names and
arities.
-/

namespace Skein

/-- Functions on numbers. -/
inductive ArithmeticOp where
  | add
  | subtract
  | multiply
  | divide
  | modulo
  | increment
  | decrement
deriving DecidableEq, Repr, Inhabited

/-- Comparisons. -/
inductive ComparisonOp where
  | equal
  | different
  | less
  | greater
  | atMost
  | atLeast
deriving DecidableEq, Repr, Inhabited

/-- Functions on atoms. -/
inductive AtomOp where
  | make
  | deref
  | reset
  | swap
deriving DecidableEq, Repr, Inhabited

/-- Functions on sequences. -/
inductive SequenceOp where
  | list
  | vector
  | cons
  | first
  | rest
  | nth
  | count
  | isEmpty
  | conj
deriving DecidableEq, Repr, Inhabited

/-- Functions on conditions. -/
inductive ConditionOp where
  | throw
  | error
  | info
  | message
  | kind
  | data
deriving DecidableEq, Repr, Inhabited

/-- Functions that start coroutines, and building blocks of operations for them. -/
inductive CoroutineOp where
  | run
  | thunk
  | unwind
  | resolved
  | rejected
  | state
  | await
deriving DecidableEq, Repr, Inhabited

/-- Functions that write values as text. -/
inductive TextOp where
  | str
  | println
deriving DecidableEq, Repr, Inhabited

/-- Tests of one value. -/
inductive TestOp where
  | not
  | isNil
  | isNumber
  | isString
  | isFunction
  | isThunk
  | isCondition
deriving DecidableEq, Repr, Inhabited

/-- The functions that a program has from the start. -/
inductive Primitive where
  | arithmetic (op : ArithmeticOp)
  | comparison (op : ComparisonOp)
  | atom (op : AtomOp)
  | sequence (op : SequenceOp)
  | condition (op : ConditionOp)
  | coroutine (op : CoroutineOp)
  | text (op : TextOp)
  | test (op : TestOp)
deriving DecidableEq, Repr, Inhabited

namespace ArithmeticOp

/-- The name and the arity of a function. -/
def signature : ArithmeticOp → String × Arity
  | add => ("+", .atLeast 0)
  | subtract => ("-", .atLeast 1)
  | multiply => ("*", .atLeast 0)
  | divide => ("/", .atLeast 1)
  | modulo => ("mod", .exactly 2)
  | increment => ("inc", .exactly 1)
  | decrement => ("dec", .exactly 1)

/-- The name of a function. -/
def name (op : ArithmeticOp) : String := op.signature.1

/-- All functions on numbers. -/
def all : List ArithmeticOp :=
  [add, subtract, multiply, divide, modulo, increment, decrement]

end ArithmeticOp

namespace ComparisonOp

/-- The name and the arity of a function. -/
def signature : ComparisonOp → String × Arity
  | equal => ("=", .atLeast 1)
  | different => ("not=", .atLeast 1)
  | less => ("<", .atLeast 1)
  | greater => (">", .atLeast 1)
  | atMost => ("<=", .atLeast 1)
  | atLeast => (">=", .atLeast 1)

/-- The name of a function. -/
def name (op : ComparisonOp) : String := op.signature.1

/-- All comparisons. -/
def all : List ComparisonOp := [equal, different, less, greater, atMost, atLeast]

end ComparisonOp

namespace AtomOp

/-- The name and the arity of a function. -/
def signature : AtomOp → String × Arity
  | make => ("atom", .exactly 1)
  | deref => ("deref", .exactly 1)
  | reset => ("reset!", .exactly 2)
  | swap => ("swap!", .atLeast 2)

/-- The name of a function. -/
def name (op : AtomOp) : String := op.signature.1

/-- All functions on atoms. -/
def all : List AtomOp := [make, deref, reset, swap]

end AtomOp

namespace SequenceOp

/-- The name and the arity of a function. -/
def signature : SequenceOp → String × Arity
  | list => ("list", .atLeast 0)
  | vector => ("vector", .atLeast 0)
  | cons => ("cons", .exactly 2)
  | first => ("first", .exactly 1)
  | rest => ("rest", .exactly 1)
  | nth => ("nth", .exactly 2)
  | count => ("count", .exactly 1)
  | isEmpty => ("empty?", .exactly 1)
  | conj => ("conj", .atLeast 1)

/-- The name of a function. -/
def name (op : SequenceOp) : String := op.signature.1

/-- All functions on sequences. -/
def all : List SequenceOp := [list, vector, cons, first, rest, nth, count, isEmpty, conj]

end SequenceOp

namespace ConditionOp

/-- The name and the arity of a function. -/
def signature : ConditionOp → String × Arity
  | throw => ("throw", .exactly 1)
  | error => ("error", .between 1 3)
  | info => ("ex-info", .between 1 3)
  | message => ("error-message", .exactly 1)
  | kind => ("error-kind", .exactly 1)
  | data => ("error-data", .exactly 1)

/-- The name of a function. -/
def name (op : ConditionOp) : String := op.signature.1

/-- All functions on conditions. -/
def all : List ConditionOp := [throw, error, info, message, kind, data]

end ConditionOp

namespace CoroutineOp

/-- The name and the arity of a function. -/
def signature : CoroutineOp → String × Arity
  | run => ("run", .exactly 3)
  | thunk => ("thunk", .exactly 1)
  | unwind => ("unwind", .exactly 1)
  | resolved => ("resolved", .exactly 3)
  | rejected => ("rejected", .exactly 3)
  | state => ("execution-state", .between 0 1)
  | await => ("await", .atLeast 0)

/-- The name of a function. -/
def name (op : CoroutineOp) : String := op.signature.1

/-- All functions for coroutines. -/
def all : List CoroutineOp := [run, thunk, unwind, resolved, rejected, state, await]

end CoroutineOp

namespace TextOp

/-- The name and the arity of a function. -/
def signature : TextOp → String × Arity
  | str => ("str", .atLeast 0)
  | println => ("println", .atLeast 0)

/-- The name of a function. -/
def name (op : TextOp) : String := op.signature.1

/-- All functions that write values. -/
def all : List TextOp := [str, println]

end TextOp

namespace TestOp

/-- The name and the arity of a function. -/
def signature : TestOp → String × Arity
  | not => ("not", .exactly 1)
  | isNil => ("nil?", .exactly 1)
  | isNumber => ("number?", .exactly 1)
  | isString => ("string?", .exactly 1)
  | isFunction => ("fn?", .exactly 1)
  | isThunk => ("thunk?", .exactly 1)
  | isCondition => ("condition?", .exactly 1)

/-- The name of a function. -/
def name (op : TestOp) : String := op.signature.1

/-- All tests. -/
def all : List TestOp := [not, isNil, isNumber, isString, isFunction, isThunk, isCondition]

end TestOp

namespace Primitive

/-- The name and the arity of a primitive. -/
def signature : Primitive → String × Arity
  | arithmetic op => op.signature
  | comparison op => op.signature
  | atom op => op.signature
  | sequence op => op.signature
  | condition op => op.signature
  | coroutine op => op.signature
  | text op => op.signature
  | test op => op.signature

/-- The name of a primitive. -/
def name (p : Primitive) : String := p.signature.1

/-- The arity of a primitive. -/
def arity (p : Primitive) : Arity := p.signature.2

/-- All primitives. -/
def all : List Primitive :=
  ArithmeticOp.all.map arithmetic ++ ComparisonOp.all.map comparison ++ AtomOp.all.map atom
    ++ SequenceOp.all.map sequence ++ ConditionOp.all.map condition
    ++ CoroutineOp.all.map coroutine ++ TextOp.all.map text ++ TestOp.all.map test

end Primitive

end Skein
