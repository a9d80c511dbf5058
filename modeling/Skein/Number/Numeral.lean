/-!
# Numerals

How a run of characters is read as a number.  An integer is an optional sign and at
least one digit, and its value fits in 64 bits.  A float is an optional sign, digits with
at most one point among or beside them, and an optional exponent; it denotes the double
nearest to its value.
-/

namespace Skein.Number

/-- The value of a run of decimal digits. -/
def ofDigits (ds : List Char) : Nat :=
  ds.foldl (fun n c => 10 * n + (c.toNat - '0'.toNat)) 0

/-- Whether a sign is a minus, and what follows the sign; no sign is a plus. -/
def splitSign : List Char → Bool × List Char
  | '-' :: cs => (true, cs)
  | '+' :: cs => (false, cs)
  | cs => (false, cs)

/-- The number that a sign and at least one digit denote. -/
def signed? (cs : List Char) : Option Int :=
  let (negative, ds) := splitSign cs
  if ds.isEmpty || !ds.all Char.isDigit then none
  else some (if negative then -(ofDigits ds : Int) else ofDigits ds)

/-- Whether an integer has 64-bit two's complement form. -/
def fitsWord (n : Int) : Bool := Int64.minValue.toInt ≤ n && n ≤ Int64.maxValue.toInt

/-- The word that has a given value. -/
def word? (n : Int) : Option Int64 := if fitsWord n then some (Int64.ofInt n) else none

/-- The integer that a run of characters denotes. -/
def integer? (cs : List Char) : Option Int64 := (signed? cs).bind word?

/-- The double nearest to `digits · 10 ^ exponent`.  A value of more than 310 digits
before the point is beyond the largest double, and one with 330 zeros after the point is
below half of the smallest. -/
def nearest (digits : Nat) (exponent : Int) : Float :=
  let magnitude := (Nat.toDigits 10 digits).length + exponent
  if digits = 0 || magnitude < -330 then 0.0
  else if magnitude > 310 then 1.0 / 0.0
  else if 0 ≤ exponent then Float.ofScientific digits false exponent.toNat
  else Float.ofScientific digits true (-exponent).toNat

/-- The exponent that the characters after the digits denote. -/
def exponent? : List Char → Option Int
  | [] => some 0
  | c :: cs => if c = 'e' || c = 'E' then signed? cs else none

/-- The float that a run of characters denotes. -/
def float? (cs : List Char) : Option Float :=
  let (negative, cs) := splitSign cs
  let (whole, cs) := cs.span Char.isDigit
  let (fraction, cs) := match cs with
    | '.' :: r => r.span Char.isDigit
    | _ => ([], cs)
  if whole.isEmpty && fraction.isEmpty then none
  else (exponent? cs).map fun e =>
    let x := nearest (ofDigits (whole ++ fraction)) (e - fraction.length)
    if negative then -x else x

end Skein.Number
