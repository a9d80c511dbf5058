/-!
# Conditions

A condition is an error as a value: a kind, by which clauses select it, a message, and a
value that it carries.
-/

namespace Skein

/-- The kinds of conditions. -/
inductive ConditionKind where
  | error
  | typeError
  | arityError
  | undefinedVariable
  | divisionByZero
  | scopeViolation
  | trampolineLimit
  /-- A kind that a program names. -/
  | user (name : String)
deriving DecidableEq, Repr, Inhabited

namespace ConditionKind

/-- The name of a kind. -/
def name : ConditionKind → String
  | error => "error"
  | typeError => "type-error"
  | arityError => "arity-error"
  | undefinedVariable => "undefined-variable"
  | divisionByZero => "division-by-zero"
  | scopeViolation => "scope-violation"
  | trampolineLimit => "trampoline-limit"
  | user name => name

/-- The kinds that programs do not name. -/
def builtin : List ConditionKind :=
  [error, typeError, arityError, undefinedVariable, divisionByZero, scopeViolation,
   trampolineLimit]

/-- The kind of a name. -/
def ofName (name : String) : ConditionKind :=
  (builtin.find? (·.name == name)).getD (user name)

/-- Whether a clause for a name accepts a kind: every kind is an error. -/
def isA (kind : ConditionKind) (name : String) : Bool := name == "error" || kind.name == name

/-- Whether a kind is one that a program names. -/
def isUser : ConditionKind → Bool
  | user _ => true
  | _ => false

/-- The kind of a name has that name. -/
theorem name_ofName (name : String) :
  (ofName name).name = name
  := by
  cases h : builtin.find? (·.name == name) with
  | none => rw [ofName, h]; rfl
  | some kind => rw [ofName, h]; simpa using List.find?_some h

end ConditionKind

/-- An error as a value, which carries a value of type `α`. -/
structure Condition (α : Type) where
  kind : ConditionKind
  message : String
  data : α
deriving Inhabited

/-- The text of a condition. -/
def Condition.text {α : Type} (c : Condition α) : String := c.kind.name ++ ": " ++ c.message

end Skein
