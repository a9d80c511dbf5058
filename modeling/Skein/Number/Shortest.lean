/-!
# Shortest decimals

The decimal text of a double.  A finite double with a fraction is written with the fewest
digits that read back to it, never with an exponent; of two such decimals the nearer one
is taken, and the upper one on a tie.  A finite double without a fraction is written
exactly, followed by `.0`.
-/

namespace Skein.Number

/-- A positive finite double `mantissa · 2 ^ exponent`, and whether the double below it is
half as far away as the one above it. -/
structure Binary where
  mantissa : Nat
  exponent : Int
  narrow : Bool
deriving DecidableEq, Repr

/-- The parts of the absolute value of a finite double. -/
def Binary.ofFloat (x : Float) : Binary :=
  let bits := x.toBits.toNat
  let hidden := Nat.pow 2 52
  let fraction := bits % hidden
  let biased := bits / hidden % Nat.pow 2 11
  if biased = 0 then ⟨fraction, -1074, false⟩
  else ⟨hidden + fraction, (biased : Int) - 1075, fraction = 0 && biased ≠ 1⟩

/-- Whether a double is negative or minus zero. -/
def isNegative (x : Float) : Bool := Nat.pow 2 63 ≤ x.toBits.toNat

namespace Binary

/-- `num · 2 ^ e` in units of `2 ^ (-k)`, where `e` is at least `-k`. -/
def scale (num : Nat) (e : Int) (k : Nat) : Nat := num * Nat.pow 2 (e + k).toNat

/-- The whole part of a binary number, when it has no fraction. -/
def whole? (b : Binary) : Option Nat :=
  if 0 ≤ b.exponent then some (b.mantissa * Nat.pow 2 b.exponent.toNat)
  else
    let unit := Nat.pow 2 (-b.exponent).toNat
    if b.mantissa % unit = 0 then some (b.mantissa / unit) else none

/-- The number of digits before the decimal point; minus the number of zeros after it,
for a number below one tenth. -/
def pointPlace (b : Binary) : Int :=
  let raised := b.mantissa * Nat.pow 10 330 * Nat.pow 2 b.exponent.toNat
  let shifted := raised / Nat.pow 2 (-b.exponent).toNat
  ((Nat.toDigits 10 shifted).length : Int) - 330

/-- Whether the decimal `d · 10 ^ e` rounds to the number.  The bounds are half way to
its neighbours, and belong to it when its mantissa is even. -/
def isReadBy (b : Binary) (d : Nat) (e : Int) : Bool :=
  let here := scale (4 * d) 0 1080 * Nat.pow 10 e.toNat
  let bound (quarters : Nat) := scale quarters b.exponent 1080 * Nat.pow 10 (-e).toNat
  let low := bound (4 * b.mantissa - (if b.narrow then 1 else 2))
  let high := bound (4 * b.mantissa + 2)
  if b.mantissa % 2 = 0 then low ≤ here && here ≤ high else low < here && here < high

/-- The decimals of a grid that surround the number, the nearer one first and the upper
one on a tie; `e` is the decimal exponent of the grid. -/
def neighbours (b : Binary) (e : Int) : List Nat :=
  let value := scale b.mantissa b.exponent 1080 * Nat.pow 10 (-e).toNat
  let unit := scale 1 0 1080 * Nat.pow 10 e.toNat
  let below := value / unit
  if 2 * (value % unit) < unit then [below, below + 1] else [below + 1, below]

/-- The first grid, from `n` digits on, that holds a decimal which reads back, and that
decimal; 17 digits always do. -/
def search (b : Binary) (place : Int) : (tries n : Nat) → Nat × Int
  | 0, n => (((b.neighbours (place - n)).head?).getD 0, place - n)
  | tries + 1, n =>
    match (b.neighbours (place - n)).find? (b.isReadBy · (place - n)) with
    | some d => (d, place - n)
    | none => b.search place tries (n + 1)

/-- The shortest decimal `d · 10 ^ e` that reads back.  The upper neighbour on the first
grid may be ten units of it, which is one of the grid before. -/
def shortest (b : Binary) : Nat × Int :=
  let (d, e) := b.search b.pointPlace 17 1
  if d % 10 = 0 then (d / 10, e + 1) else (d, e)

end Binary

/-- The positional text of `d · 10 ^ (-places)`, with a digit before the point. -/
def positional (d places : Nat) : List Char :=
  let digits := Nat.toDigits 10 d
  let padded := List.replicate (places + 1 - digits.length) '0' ++ digits
  padded.take (padded.length - places) ++ '.' :: padded.drop (padded.length - places)

/-- The text of the absolute value of a finite double. -/
def Binary.text (b : Binary) : List Char :=
  match b.whole? with
  | some n => Nat.toDigits 10 n ++ ['.', '0']
  | none =>
    let (d, e) := b.shortest
    positional d (-e).toNat

/-- The text of a double. -/
def floatText (x : Float) : String :=
  if x.isNaN then "NaN"
  else
    let sign := if isNegative x then ['-'] else []
    let size := if x.isInf then ['i', 'n', 'f'] else (Binary.ofFloat x).text
    String.ofList (sign ++ size)

end Skein.Number
