import Skein.Value

/-!
# Tests of one value
-/

namespace Skein

/-- Whether a test holds of a value. -/
def TestOp.holds : TestOp → Value → Bool
  | not, v => !v.isTruthy
  | isNil, v => v.isNil
  | isNumber, v => v.float?.isSome
  | isString, .scalar (.string _) => true
  | isString, _ => false
  | isFunction, v => v.isCallable
  | isThunk, v => v.isThunk
  | isCondition, .condition _ => true
  | isCondition, _ => false

/-- Apply a test. -/
def TestOp.apply (op : TestOp) (args : List Value) : Value :=
  .bool (args.any op.holds)

end Skein
