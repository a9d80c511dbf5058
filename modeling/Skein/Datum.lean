import Skein.Number.Shortest
import Skein.Symbol.Table
import Skein.Text.Quoted

/-!
# Data

A datum is what source text denotes before it is compiled: a scalar, or a list or vector
of data.  `Datum.text` is its printed form, and `Datum.same` the equality under which
numbers are compared by value and lists with vectors by their elements.
-/

namespace Skein

/-- The values without parts. -/
inductive Scalar where
  | nil
  | bool (b : Bool)
  | int (n : Int64)
  | float (x : Float)
  | string (s : String)
  | symbol (name : Symbol)
  | keyword (name : String)
deriving Inhabited

namespace Scalar

/-- The name of a scalar's type. -/
def typeName : Scalar → String
  | nil => "nil"
  | bool _ => "boolean"
  | int _ => "integer"
  | float _ => "float"
  | string _ => "string"
  | symbol _ => "symbol"
  | keyword _ => "keyword"

/-- The printed form of a scalar. -/
def text : Scalar → String
  | nil => "nil"
  | bool b => if b then "true" else "false"
  | int n => toString n.toInt
  | float x => Number.floatText x
  | string s => Text.quoted s
  | symbol name => name
  | keyword name => ":" ++ name

/-- Equality of scalars, where an integer equals a float of the same value. -/
def same : Scalar → Scalar → Bool
  | nil, nil => true
  | bool a, bool b => a == b
  | int a, int b => a == b
  | float a, float b => a == b
  | int a, float b => a.toFloat == b
  | float a, int b => b.toFloat == a
  | string a, string b => a == b
  | symbol a, symbol b => a == b
  | keyword a, keyword b => a == b
  | _, _ => false

/-- Only `nil` and `false` count as false. -/
def isTruthy : Scalar → Bool
  | nil | bool false => false
  | _ => true

end Scalar

/-- A source form. -/
inductive Datum where
  | scalar (s : Scalar)
  | list (items : List Datum)
  | vector (items : List Datum)
deriving Inhabited

namespace Text

/-- Texts in a row, with a space between any two. -/
def spaced (texts : List String) : String := " ".intercalate texts

end Text

namespace Datum

/-- The datum of a symbol. -/
def symbol (name : Symbol) : Datum := .scalar (.symbol name)

/-- The empty value. -/
def nil : Datum := .scalar .nil

mutual

/-- The printed form of a datum. -/
def text : Datum → String
  | scalar s => s.text
  | list items => "(" ++ Text.spaced (texts items) ++ ")"
  | vector items => "[" ++ Text.spaced (texts items) ++ "]"

/-- The printed forms of some data. -/
def texts : List Datum → List String
  | [] => []
  | d :: ds => text d :: texts ds

end

mutual

/-- Equality of data, where a list equals a vector with the same elements. -/
def same : Datum → Datum → Bool
  | scalar a, scalar b => a.same b
  | list as, list bs | list as, vector bs | vector as, list bs | vector as, vector bs =>
    sameAll as bs
  | _, _ => false

/-- Equality of sequences of data, element by element. -/
def sameAll : List Datum → List Datum → Bool
  | [], [] => true
  | a :: as, b :: bs => same a b && sameAll as bs
  | _, _ => false

end

mutual

/-- The weight of a datum: the number of its scalars and brackets. -/
def weight : Datum → Nat
  | scalar _ => 1
  | list items | vector items => weightAll items + 1

/-- The sum of the weights of some data. -/
def weightAll : List Datum → Nat
  | [] => 0
  | d :: ds => weight d + weightAll ds

end

/-- Every datum has a weight. -/
theorem weight_pos (d : Datum) :
  0 < d.weight
  := by
  cases d <;> simp [weight]

/-- A part of some data weighs no more than all of them. -/
theorem weightAll_le_of_sublist {ds es : List Datum} (h : ds.Sublist es) :
  weightAll ds ≤ weightAll es
  := by
  induction h with
  | slnil => simp
  | cons d _ ih => simp only [weightAll]; omega
  | cons_cons d _ ih => simp only [weightAll]; omega

end Datum

end Skein
