import Skein.Value

/-!
# Equality of values

Numbers are compared by value, lists and vectors by their elements, conditions by their
parts, and values with an identity by that identity.
-/

namespace Skein

/-- What tells native functions apart: what they do, or their number. -/
inductive Native.Identity where
  | builtin (b : Builtin)
  | primitive (p : Primitive)
  | sentinel (op : Symbol)
  | timer (op : TimerOp)
  | numbered (id : Nat)
deriving DecidableEq, Repr

/-- What tells a native function from the others. -/
def Native.identity {α : Type} : Native α → Native.Identity
  | builtin b => .builtin b
  | primitive p => .primitive p
  | sentinel op => .sentinel op
  | timer op => .timer op
  | awaitContinuation id .. | awaitFailure id .. | settle id .. | inContext id ..
  | instrument id _ => .numbered id

namespace Value

mutual

/-- Equality of values. -/
def same : Value → Value → Bool
  | scalar a, scalar b => a.same b
  | list as, list bs | list as, vector bs | vector as, list bs | vector as, vector bs =>
    sameAll as bs
  | closure a .., closure b .. => a = b
  | native f, native g => f.identity = g.identity
  | condition ⟨k, m, a⟩, condition ⟨k', m', b⟩ => k = k' && m == m' && same a b
  | thunk a _, thunk b _ => a = b
  | atom a, atom b => a = b
  | execution a, execution b => a = b
  | _, _ => false

/-- Equality of sequences of values, element by element. -/
def sameAll : List Value → List Value → Bool
  | [], [] => true
  | a :: as, b :: bs => same a b && sameAll as bs
  | _, _ => false

end

end Value

end Skein
