import Skein.Machine
import Skein.Number.Numeral

/-!
# Arithmetic

Integers of 64 bits and floats.  An operation on two integers is exact, and its result is
an error when it does not fit; when one operand is a float, so is the result.
-/

namespace Skein

/-- A number. -/
inductive Numeric where
  | int (n : Int64)
  | float (x : Float)
deriving Inhabited

namespace Numeric

/-- The number that a value is. -/
def ofValue? : Value → Option Numeric
  | .scalar (.int n) => some (int n)
  | .scalar (.float x) => some (float x)
  | _ => none

/-- A number as a value. -/
def toValue : Numeric → Value
  | int n => .int n
  | float x => .float x

/-- A number as a float. -/
def toFloat : Numeric → Float
  | int n => n.toFloat
  | float x => x

/-- Whether a number is zero. -/
def isZero : Numeric → Bool
  | int n => n = 0
  | float x => x == 0.0

end Numeric

namespace ArithmeticOp

/-- The number that an argument of a function is. -/
def argument (name : String) (v : Value) : Run Numeric :=
  match Numeric.ofValue? v with
  | some n => return n
  | none => Run.raise .typeError (name ++ ": expected number, got " ++ v.typeName)

/-- The integer that an argument of a function is. -/
def intArgument (name : String) (v : Value) : Run Int64 :=
  match v.int? with
  | some n => return n
  | none => Run.raise .typeError (name ++ ": expected integer, got " ++ v.typeName)

/-- An exact result as a number, or the error of a result that does not fit. -/
def exact (name : String) (n : Int) : Run Numeric :=
  match Number.word? n with
  | some w => return .int w
  | none => Run.raise .error (name ++ ": integer overflow")

/-- Combine two numbers: exactly when both are integers, and as floats otherwise. -/
def combine (name : String) (onInt : Int → Int → Int) (onFloat : Float → Float → Float) :
    Numeric → Numeric → Run Numeric
  | .int a, .int b => exact name (onInt a.toInt b.toInt)
  | a, b => return .float (onFloat a.toFloat b.toFloat)

/-- Combine a number with some arguments, from left to right. -/
def accumulate (name : String) (onInt : Int → Int → Int) (onFloat : Float → Float → Float)
    (acc : Numeric) : List Value → Run Numeric
  | [] => return acc
  | v :: vs => do
    let n ← argument name v
    let next ← combine name onInt onFloat acc n
    accumulate name onInt onFloat next vs

/-- The quotient of two numbers: an integer when both are integers and it is exact.  The
division of the least integer by minus one is a fault, since its remainder is computed
first and overflows. -/
def quotient : Numeric → Numeric → Run Numeric
  | .int a, .int b =>
    if a = Int64.minValue && b = -1 then
      throw (.fault "attempt to calculate the remainder with overflow")
    else if a.toInt.tmod b.toInt = 0 then exact "/" (a.toInt.tdiv b.toInt)
    else return .float (a.toFloat / b.toFloat)
  | a, b => return .float (a.toFloat / b.toFloat)

/-- Divide a number by some arguments, from left to right. -/
def divideAll (acc : Numeric) : List Value → Run Numeric
  | [] => return acc
  | v :: vs => do
    let n ← argument "/" v
    if n.isZero then Run.raise .divisionByZero "/: division by zero"
    else
      let next ← quotient acc n
      divideAll next vs

/-- The remainder of two integers, with the sign of the divisor.  The remainder of the
least integer by minus one is an error. -/
def remainder (a b : Int64) : Run Numeric :=
  if b = 0 then Run.raise .divisionByZero "mod: division by zero"
  else if a = Int64.minValue && b = -1 then Run.raise .error "mod: integer overflow"
  else
    let r := a.toInt.tmod b.toInt
    exact "mod" (if r ≠ 0 && (decide (r < 0) != decide (b.toInt < 0)) then r + b.toInt else r)

/-- The value of a function on numbers. -/
def compute (op : ArithmeticOp) (args : List Value) : Run Numeric :=
  match op, args with
  | .add, vs => accumulate "+" (· + ·) (· + ·) (.int 0) vs
  | .multiply, vs => accumulate "*" (· * ·) (· * ·) (.int 1) vs
  | .subtract, [v] => accumulate "-" (· - ·) (· - ·) (.int 0) [v]
  | .subtract, v :: vs => do
    let n ← argument "-" v
    accumulate "-" (· - ·) (· - ·) n vs
  | .divide, [v] => do
    let _ ← argument "/" v
    divideAll (.int 1) [v]
  | .divide, v :: vs => do
    let n ← argument "/" v
    divideAll n vs
  | .modulo, [a, b] => do
    let a ← intArgument "mod" a
    let b ← intArgument "mod" b
    remainder a b
  | .increment, [v] => accumulate "inc" (· + ·) (· + ·) (.int 1) [v]
  | .decrement, [v] => do
    let n ← argument "dec" v
    combine "dec" (· - ·) (· - ·) n (.int 1)
  | _, _ => return .int 0

/-- Apply a function on numbers. -/
def apply (op : ArithmeticOp) (args : List Value) : Run Value := do
  return (← compute op args).toValue

end ArithmeticOp

end Skein
