import Skein.Trampoline

/-!
# Atoms

Mutable references.
-/

namespace Skein.AtomOp

/-- The location of the atom that an argument of a function is. -/
def argument (name : String) (v : Value) : Run Nat :=
  match v with
  | .atom location => return location
  | v => Run.raise .typeError (name ++ ": expected atom, got " ++ v.typeName)

/-- Apply a function on atoms.  While `swap!` calls its function, the atom keeps its old
contents. -/
def apply (op : AtomOp) (call : Trampoline.Call) (args : List Value) : Run Value :=
  let name := op.name
  match op, args with
  | .make, [v] => Run.newAtom v
  | .deref, [a] => do Run.readAtom (← argument name a)
  | .reset, [a, v] => do
    Run.writeAtom (← argument name a) v
    return v
  | .swap, a :: f :: vs => do
    let location ← argument name a
    let old ← Run.readAtom location
    let new ← call f (old :: vs)
    Run.writeAtom location new
    return new
  | _, _ => return .nil

end Skein.AtomOp
