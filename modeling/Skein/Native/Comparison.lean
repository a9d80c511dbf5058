import Skein.Machine
import Skein.Value.Equality

/-!
# Comparisons

A comparison holds of some arguments when it holds of any two that are next to each
other.  Two integers, two strings, or two numbers can be ordered.
-/

namespace Skein.ComparisonOp

/-- How two floats compare; a float that is no number does not compare. -/
def compareFloats (a b : Float) : Option Ordering :=
  if a < b then some .lt else if b < a then some .gt else if a == b then some .eq else none

/-- How two strings compare, by their code points. -/
def compareStrings (a b : String) : Ordering :=
  if a < b then .lt else if a = b then .eq else .gt

/-- How two numbers compare as floats, for a function with a name. -/
def orderFloats (name : String) (a b : Value) : Run (Option Ordering) :=
  match a.float?, b.float? with
  | some x, some y => return compareFloats x y
  | _, _ =>
    Run.raise .typeError (name ++ ": cannot compare " ++ a.typeName ++ " with " ++ b.typeName)

/-- How two values compare, for a function with a name. -/
def order (name : String) (a b : Value) : Run (Option Ordering) :=
  match a, b with
  | .scalar (.int m), .scalar (.int n) => return some (compare m.toInt n.toInt)
  | .scalar (.string s), .scalar (.string t) => return some (compareStrings s t)
  | a, b => orderFloats name a b

/-- Whether an accepted order holds between any two neighbours.  Nothing is compared after
the first two between which it does not. -/
def ordered (name : String) (accept : Ordering → Bool) : List Value → Run Bool
  | a :: b :: rest => do
    match ← order name a b with
    | some o => if accept o then ordered name accept (b :: rest) else return false
    | none => return false
  | _ => return true

/-- Whether any two neighbours are equal. -/
def allSame : List Value → Bool
  | a :: b :: rest => a.same b && allSame (b :: rest)
  | _ => true

/-- Apply a comparison. -/
def apply (op : ComparisonOp) (args : List Value) : Run Value :=
  let name := op.name
  match op with
  | .equal => return .bool (allSame args)
  | .different => return .bool (!allSame args)
  | .less => return .bool (← ordered name (·.isLT) args)
  | .greater => return .bool (← ordered name (·.isGT) args)
  | .atMost => return .bool (← ordered name (·.isLE) args)
  | .atLeast => return .bool (← ordered name (·.isGE) args)

end Skein.ComparisonOp
