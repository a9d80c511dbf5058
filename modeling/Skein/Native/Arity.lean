/-!
# Arities

How many arguments a function takes, and what is said when it is given another number.
-/

namespace Skein

/-- How many arguments a function takes. -/
inductive Arity where
  | exactly (n : Nat)
  | atLeast (n : Nat)
  | between (least most : Nat)
deriving DecidableEq, Repr, Inhabited

namespace Arity

/-- Whether a function takes a number of arguments. -/
def accepts : Arity → Nat → Bool
  | exactly n, k => k = n
  | atLeast n, k => n ≤ k
  | between least most, k => least ≤ k && k ≤ most

/-- The text of an arity. -/
def text : Arity → String
  | exactly n => toString n
  | atLeast n => "at least " ++ toString n
  | between least most => toString least ++ " to " ++ toString most

/-- What is said when a function gets a number of arguments that it does not take. -/
def complaint (arity : Arity) (name : String) (found : Nat) : String :=
  name ++ ": expected " ++ arity.text ++ " argument"
    ++ (if arity = exactly 1 then "" else "s") ++ ", got " ++ toString found

end Arity

end Skein
