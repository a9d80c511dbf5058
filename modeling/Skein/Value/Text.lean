import Skein.Value

/-!
# The text of values

Values are written like data, and values that have no written form between `#<` and `>`.
An atom is written with its contents.  Atoms can contain each other, and then they have
no text: the writer follows one atom more than there are, and gives up when there would be
another one.
-/

namespace Skein

/-- The contents of atoms and the states of executions, by their numbers; executions are
numbered from one. -/
structure Heap where
  atoms : Array Value
  executions : Array ExecutionState
deriving Inhabited

namespace Heap

/-- The contents of an atom; one that was never made is empty. -/
def contents (h : Heap) (location : Nat) : Value := h.atoms[location]?.getD .nil

/-- The state of an execution. -/
def state? (h : Heap) (id : Nat) : Option ExecutionState :=
  if id = 0 then none else h.executions[id - 1]?

/-- The text of an execution. -/
def executionText (h : Heap) (id : Nat) : String :=
  "#<execution " ++ toString id ++ " " ++ ((h.state? id).getD .running).name ++ ">"

end Heap

namespace Value

/-- The text of a function with a name, or without one. -/
def functionText : Option Symbol → String
  | none => "#<fn>"
  | some name => "#<fn " ++ name ++ ">"

mutual

/-- The text of a value, where `atomText` writes atoms and `executionText` executions. -/
def textWith? (atomText : Nat → Option String) (executionText : Nat → String) :
    Value → Option String
  | scalar s => some s.text
  | list items => do
    return "(" ++ Text.spaced (← textsWith? atomText executionText items) ++ ")"
  | vector items => do
    return "[" ++ Text.spaced (← textsWith? atomText executionText items) ++ "]"
  | closure _ name .. => some (functionText name)
  | native f => some ("#<native " ++ f.name ++ ">")
  | condition c => some ("#<condition " ++ c.text ++ ">")
  | thunk .. => some "#<thunk>"
  | atom location => atomText location
  | execution id => some (executionText id)

/-- The texts of some values. -/
def textsWith? (atomText : Nat → Option String) (executionText : Nat → String) :
    List Value → Option (List String)
  | [] => some []
  | v :: vs => do
    return (← textWith? atomText executionText v) :: (← textsWith? atomText executionText vs)

end

/-- The text of an atom, where at most `fuel` atoms are written inside each other. -/
def atomText? (h : Heap) : (fuel : Nat) → (location : Nat) → Option String
  | 0, _ => none
  | fuel + 1, location => do
    return "#<atom " ++
      (← textWith? (atomText? h fuel) h.executionText (h.contents location)) ++ ">"

/-- The text of a value; none when atoms contain each other. -/
def text? (h : Heap) (v : Value) : Option String :=
  textWith? (atomText? h (h.atoms.size + 1)) h.executionText v

/-- The text of a value for a reader: a string without quotes. -/
def plainText? (h : Heap) : Value → Option String
  | scalar (.string s) => some s
  | v => v.text? h

end Value

/-- A value as an observer sees it: its type, its text, and what it carries if it is a
condition. -/
inductive Shown where
  | mk (typeName text : String) (data : Option Shown)
deriving Inhabited

/-- A value as an observer sees it; nothing is seen of a value without a text. -/
def Value.shown? (h : Heap) : Value → Option Shown
  | condition ⟨kind, message, data⟩ => do
    let text ← text? h (condition ⟨kind, message, data⟩)
    return .mk "condition" text (some (← shown? h data))
  | v => do return .mk v.typeName (← text? h v) none

end Skein
