import Skein.Datum

/-!
# Scopes of a lowering

What is known at a place in a coroutine body while it is lowered: the continuations that
receive the value and the errors of the subtree, the names bound around it, and the loop
whose re-entries are lowered.
-/

namespace Skein.Coroutine

/-- Names in the reverse of the order in which they were bound, a name as often as it was
bound. -/
abbrev Bound := List Symbol

/-- Bind one name after another. -/
def Bound.extendAll (bound : Bound) (names : List Symbol) : Bound := names.reverse ++ bound

/-- A loop whose re-entries are lowered: the function that stands for its body, and the
number of its bindings. -/
structure Head where
  name : Symbol
  arity : Nat
deriving DecidableEq, Repr

/-- What is known at a place in a coroutine body. -/
structure Scope where
  /-- The continuation that receives the value of the subtree. -/
  success : Symbol
  /-- The continuation that receives errors raised after a suspension. -/
  failure : Symbol
  /-- The names bound around the place. -/
  bound : Bound
  /-- The loop whose re-entries are lowered. -/
  head : Option Head
deriving DecidableEq, Repr

namespace Scope

/-- The scope of a whole body. -/
def ofContinuations (success failure : Symbol) : Scope :=
  ⟨success, failure, [failure, success], none⟩

/-- The scope inside some more bindings. -/
def binding (s : Scope) (names : List Symbol) : Scope :=
  { s with bound := s.bound.extendAll names }

/-- The scope of a subtree whose value goes elsewhere. -/
def delivering (s : Scope) (success : Symbol) : Scope :=
  { s with success, bound := success :: s.bound }

/-- The scope of a subtree whose value and errors go elsewhere. -/
def continuingWith (s : Scope) (success failure : Symbol) : Scope :=
  { s with success, failure, bound := failure :: success :: s.bound }

/-- The scope of the body of a lowered loop. -/
def inLoop (s : Scope) (head : Head) : Scope :=
  { s with head := some head, bound := head.name :: s.bound }

/-- The scope inside some bindings and then others. -/
theorem binding_append (s : Scope) (names names' : List Symbol) :
  s.binding (names ++ names') = (s.binding names).binding names'
  := by
  unfold binding Bound.extendAll
  rw [List.reverse_append, List.append_assoc]

end Scope

end Skein.Coroutine
