import Skein.Machine

/-!
# Arguments

What a native function may expect of its arguments.  An argument of another type raises a
condition.
-/

namespace Skein.Argument

/-- The integer that a value is. -/
def int (v : Value) : Run Int64 :=
  match v.int? with
  | some n => return n
  | none => Run.raise .typeError ("expected integer, got " ++ v.typeName)

/-- The number that a value is, as a float. -/
def float (v : Value) : Run Float :=
  match v.float? with
  | some x => return x
  | none => Run.raise .typeError ("expected number, got " ++ v.typeName)

/-- The elements of a sequence. -/
def elements (v : Value) : Run (List Value) :=
  match v.elements? with
  | some items => return items
  | none => Run.raise .typeError ("expected list or vector, got " ++ v.typeName)

/-- Check that an argument of a function is a function. -/
def checkFunction (name : String) (v : Value) : Run Unit :=
  if v.isCallable then pure ()
  else Run.raise .typeError (name ++ ": expected a function, got " ++ v.typeName)

/-- Make a thunk of an argument that is a function. -/
def toThunk (v : Value) : Run Value := do
  checkFunction "thunk" v
  Run.thunk v

end Skein.Argument
