import Skein.Datum

/-!
# Scripts

A script describes work for the trampoline: what it writes to the journal, the work that
it resumes and the work that it starts in levels of its own, and what it comes to.
-/

namespace Skein

mutual

/-- A piece of work: a label for the journal, work to resume, work for levels of its own,
and a result. -/
inductive Script where
  | mk (label : String) (resumed nested : List Script) (result : ScriptResult)

/-- What a piece of work comes to. -/
inductive ScriptResult where
  /-- A thunk that does some work. -/
  | thunk (work : Script)
  /-- The value that such a thunk unwinds to. -/
  | unwind (work : Script)
  /-- A chain of thunks that ends in `:liftoff`. -/
  | countdown (n : Nat)
  /-- An error. -/
  | error (kind message : String)
  /-- A value. -/
  | value (d : Datum)

end

/-- The label of a piece of work. -/
def Script.label : Script → String
  | .mk label _ _ _ => label

end Skein
