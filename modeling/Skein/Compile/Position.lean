/-!
# Positions

Where a form stands with respect to the innermost loop around it.
-/

namespace Skein.Compile

/-- Where a form stands. -/
structure Position where
  /-- The number of bindings of the loop that a re-entry here would enter. -/
  loop : Option Nat
  /-- Whether the value of the form is the value of that loop. -/
  tail : Bool
deriving DecidableEq, Repr

namespace Position

/-- Outside of every loop. -/
def top : Position := ⟨none, false⟩

/-- The body of a loop. -/
def loopBody (arity : Nat) : Position := ⟨some arity, true⟩

/-- A subform whose value is used by the form around it. -/
def operand (p : Position) : Position := { p with tail := false }

/-- The number of values that a re-entry here has to give, if one is allowed. -/
def reentry? (p : Position) : Option Nat := if p.tail then p.loop else none

end Position

end Skein.Compile
