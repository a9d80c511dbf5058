import Skein.Expr

/-!
# Equality of expressions

Two trees are the same when they have the same shape and names and their literals are the
same data.
-/

namespace Skein.Expr

mutual

/-- Equality of trees. -/
def same : Expr → Expr → Bool
  | literal a, literal b => a.same b
  | builtin a, builtin b => a = b
  | var x, var y => x == y
  | call f as, call g bs => same f g && sameAll as bs
  | cond a b c, cond a' b' c' => same a a' && same b b' && same c c'
  | seq as, seq bs => sameAll as bs
  | bind bs e, bind bs' e' => sameBindings bs bs' && same e e'
  | loop bs e, loop bs' e' => sameBindings bs bs' && same e e'
  | recur as, recur bs => sameAll as bs
  | protect e cs d, protect e' cs' d' => same e e' && sameClauses cs cs' && sameCleanup d d'
  | define x e, define y e' => x == y && same e e'
  | lambda n ps e, lambda n' ps' e' => n == n' && ps == ps' && same e e'
  | _, _ => false

/-- Equality of sequences of trees. -/
def sameAll : List Expr → List Expr → Bool
  | [], [] => true
  | a :: as, b :: bs => same a b && sameAll as bs
  | _, _ => false

/-- Equality of bindings. -/
def sameBindings : List (Symbol × Expr) → List (Symbol × Expr) → Bool
  | [], [] => true
  | (x, a) :: as, (y, b) :: bs => x == y && same a b && sameBindings as bs
  | _, _ => false

/-- Equality of clauses. -/
def sameClauses : List (Clause Expr) → List (Clause Expr) → Bool
  | [], [] => true
  | ⟨s, x, a⟩ :: as, ⟨s', y, b⟩ :: bs => s = s' && x == y && same a b && sameClauses as bs
  | _, _ => false

/-- Equality of cleanups. -/
def sameCleanup : Option Expr → Option Expr → Bool
  | none, none => true
  | some a, some b => same a b
  | _, _ => false

end

end Skein.Expr
