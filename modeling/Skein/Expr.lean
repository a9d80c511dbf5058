import Skein.Datum

/-!
# Expressions

The trees that forms are compiled to and that are evaluated.  `Expr.children` lists the
trees whose evaluation is part of the evaluation of a tree; the body of a function
literal is not among them, since it runs when the function is called.  `Expr.weight`
measures trees, and every child and function body weighs less than the tree it is part
of.
-/

namespace Skein

/-- The functions that compiled trees hold directly, so that no binding of a program can
hide them. -/
inductive Builtin where
  /-- Enter a frame of dynamic bindings. -/
  | pushBindings
  /-- Leave a frame of dynamic bindings. -/
  | popBindings
  /-- Make a thunk from a function without parameters. -/
  | thunk
  /-- Raise a condition. -/
  | throw
  /-- Wrap the continuation that receives the value of a suspended call. -/
  | awaitResume
  /-- Wrap the continuation that receives the error of a suspended call. -/
  | awaitReject
deriving DecidableEq, Repr, Inhabited

/-- The name of a function that compiled trees hold. -/
def Builtin.name : Builtin → String
  | pushBindings => "push-bindings"
  | popBindings => "pop-bindings"
  | thunk => "thunk"
  | throw => "throw"
  | awaitResume => "await-resume"
  | awaitReject => "await-reject"

/-- Which conditions a catch clause accepts. -/
inductive Selector where
  | any
  | kind (name : String)
deriving DecidableEq, Repr, Inhabited

/-- A catch clause: the conditions it accepts, the name it binds, and its body. -/
structure Clause (α : Type) where
  selector : Selector
  var : Symbol
  body : α
deriving Repr, Inhabited

/-- A compiled tree. -/
inductive Expr where
  /-- A quoted datum. -/
  | literal (d : Datum)
  /-- A function held by the tree. -/
  | builtin (b : Builtin)
  /-- A reference to a lexical, dynamic or global binding. -/
  | var (x : Symbol)
  /-- A function call. -/
  | call (f : Expr) (args : List Expr)
  /-- A conditional. -/
  | cond (test yes no : Expr)
  /-- A sequence, whose value is the last one. -/
  | seq (es : List Expr)
  /-- Bindings, each in the scope of those before it. -/
  | bind (bindings : List (Symbol × Expr)) (body : Expr)
  /-- Bindings as in `bind`, whose body can be entered anew with other values. -/
  | loop (bindings : List (Symbol × Expr)) (body : Expr)
  /-- Enter the body of the innermost loop anew. -/
  | recur (args : List Expr)
  /-- A body whose errors are handed to clauses, and a cleanup that runs in any case. -/
  | protect (body : Expr) (clauses : List (Clause Expr)) (cleanup : Option Expr)
  /-- The definition of a global. -/
  | define (x : Symbol) (e : Expr)
  /-- A function literal, which can refer to itself by its name. -/
  | lambda (name : Option Symbol) (params : List Symbol) (body : Expr)
deriving Inhabited

namespace Expr

/-- The empty value. -/
def nil : Expr := .literal .nil

/-- Bindings around a body; without bindings, the body itself. -/
def binding (bindings : List (Symbol × Expr)) (body : Expr) : Expr :=
  if bindings.isEmpty then body else .bind bindings body

/-- A sequence; of one expression, that expression, and of none, the empty value. -/
def block : List Expr → Expr
  | [] => nil
  | [e] => e
  | es => .seq es

/-- The call of a named function with one argument. -/
def send (k : Symbol) (e : Expr) : Expr := .call (.var k) [e]

/-- Whether a tree is evaluated without effects: a literal or a reference. -/
def isAtom : Expr → Bool
  | literal _ | builtin _ | var _ => true
  | _ => false

/-- The trees whose evaluation is part of the evaluation of a tree, in source order. -/
def children : Expr → List Expr
  | literal _ | builtin _ | var _ | lambda .. => []
  | call f args => f :: args
  | cond test yes no => [test, yes, no]
  | seq es | recur es => es
  | bind bindings body | loop bindings body => bindings.map (·.2) ++ [body]
  | protect body clauses cleanup => body :: clauses.map (·.body) ++ cleanup.toList
  | define _ e => [e]

mutual

/-- The weight of a tree: the number of its nodes, where a protected body counts for
eight. -/
def weight : Expr → Nat
  | literal _ | builtin _ | var _ => 1
  | call f args => weight f + weightAll args + 1
  | cond test yes no => weight test + weight yes + weight no + 1
  | seq es | recur es => weightAll es + 1
  | bind bindings body | loop bindings body => weightBindings bindings + weight body + 1
  | protect body clauses cleanup =>
    weight body + weightClauses clauses + weightCleanup cleanup + 8
  | define _ e => weight e + 1
  | lambda _ _ body => weight body + 1

/-- The sum of the weights of some trees. -/
def weightAll : List Expr → Nat
  | [] => 0
  | e :: es => weight e + weightAll es

/-- The sum of the weights of the initial values of some bindings. -/
def weightBindings : List (Symbol × Expr) → Nat
  | [] => 0
  | (_, e) :: bs => weight e + weightBindings bs

/-- The sum of the weights of the bodies of some clauses. -/
def weightClauses : List (Clause Expr) → Nat
  | [] => 0
  | ⟨_, _, e⟩ :: cs => weight e + weightClauses cs

/-- The weight of a cleanup, if there is one. -/
def weightCleanup : Option Expr → Nat
  | none => 0
  | some e => weight e

end

attribute [local simp] weight weightAll weightBindings weightClauses weightCleanup

/-- Every tree has a weight. -/
theorem weight_pos (e : Expr) :
  0 < e.weight
  := by
  cases e <;> simp

/-- A tree weighs no more than all trees of a list it is in. -/
theorem weight_le_weightAll {e : Expr} {es : List Expr} (h : e ∈ es) :
  e.weight ≤ weightAll es
  := by
  induction es with
  | nil => simp at h
  | cons d es ih =>
    rcases List.mem_cons.1 h with rfl | h
    · simp
    · have := ih h
      simp only [weightAll]
      omega

/-- The weights of two lists add up. -/
theorem weightAll_append (es ds : List Expr) :
  weightAll (es ++ ds) = weightAll es + weightAll ds
  := by
  induction es with
  | nil => simp
  | cons e es ih => simp [ih]; omega

/-- Bindings weigh as much as their initial values. -/
theorem weightAll_map_snd (bs : List (Symbol × Expr)) :
  weightAll (bs.map (·.2)) = weightBindings bs
  := by
  induction bs with
  | nil => rfl
  | cons b bs ih => simp [ih]

/-- Clauses weigh as much as their bodies. -/
theorem weightAll_map_body (cs : List (Clause Expr)) :
  weightAll (cs.map (·.body)) = weightClauses cs
  := by
  induction cs with
  | nil => rfl
  | cons c cs ih => simp [ih]

/-- A cleanup weighs as much as its tree. -/
theorem weightAll_toList (cleanup : Option Expr) :
  weightAll cleanup.toList = weightCleanup cleanup
  := by
  cases cleanup <;> rfl

/-- The children of a tree weigh less than it, all together. -/
theorem weightAll_children_lt (e : Expr) :
  weightAll e.children < e.weight
  := by
  cases e <;>
    simp only [children, weightAll, weight, weightAll_append, weightAll_map_snd,
      weightAll_map_body, weightAll_toList, List.cons_append] <;> omega

/-- A child weighs less than its tree. -/
theorem weight_lt_of_mem_children {c e : Expr} (h : c ∈ e.children) :
  c.weight < e.weight
  := Nat.lt_of_le_of_lt (weight_le_weightAll h) e.weightAll_children_lt

/-- A sequence weighs at most one more than its trees. -/
theorem weight_block_le (es : List Expr) :
  (block es).weight ≤ weightAll es + 1
  := by
  unfold block
  split <;> simp [nil]

end Expr

end Skein
