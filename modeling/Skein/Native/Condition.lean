import Skein.Machine

/-!
# Making and raising conditions

A condition is made of an optional keyword for its kind, a message, and an optional value
that it carries.
-/

namespace Skein.ConditionOp

/-- The condition of a kind with a message and what it carries. -/
def buildOf (name : String) (kind : ConditionKind) : List Value → Run (Condition Value)
  | .scalar (.string text) :: rest => return ⟨kind, text, (rest.head?).getD .nil⟩
  | v :: _ => Run.raise .typeError (name ++ ": expected message string, got " ++ v.typeName)
  | [] => Run.raise .arityError (name ++ ": missing message")

/-- The condition that a function is asked to make. -/
def build (name : String) (args : List Value) : Run (Condition Value) :=
  match args with
  | .scalar (.keyword word) :: rest => buildOf name (.ofName word) rest
  | _ => buildOf name .error args

/-- The condition that an argument of a function is. -/
def argument (name : String) (v : Value) : Run (Condition Value) :=
  match v with
  | .condition c => return c
  | v => Run.raise .typeError (name ++ ": expected condition, got " ++ v.typeName)

/-- Apply a function on conditions. -/
def apply (op : ConditionOp) (args : List Value) : Run Value :=
  let name := op.name
  match op, args with
  | .throw, [v] => Run.throwValue v
  | .error, vs => do Run.raiseCondition (← build name vs)
  | .info, vs => return .condition (← build name vs)
  | .message, [v] => return .string (← argument name v).message
  | .kind, [v] => return .keyword (← argument name v).kind.name
  | .data, [v] => return (← argument name v).data
  | _, _ => return .nil

end Skein.ConditionOp
