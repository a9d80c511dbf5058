import Skein.Expr

/-!
# Where expressions suspend

Questions about trees that are asked before a coroutine body is lowered.  A breakpoint
is an operation whose calls suspend; which names are breakpoints is given by a predicate.
`reaches` says whether evaluating a tree can call a breakpoint, `recurs` whether it can
re-enter the innermost loop around it, and `violation?` finds a breakpoint inside a
function literal, where a call could not suspend the coroutine around it.
-/

namespace Skein.Expr

/-- The breakpoint that a tree calls. -/
def calledBreakpoint? (isBreakpoint : Symbol → Bool) : Expr → Option Symbol
  | call (var x) _ => if isBreakpoint x then some x else none
  | _ => none

/-- Whether evaluating a tree can call a breakpoint.  A call inside a function literal
does not count. -/
def reaches (isBreakpoint : Symbol → Bool) (e : Expr) : Bool :=
  (e.calledBreakpoint? isBreakpoint).isSome ||
    e.children.attach.any fun ⟨c, _⟩ => c.reaches isBreakpoint
termination_by e.weight
decreasing_by exact weight_lt_of_mem_children ‹_›

/-- A tree reaches a breakpoint when it calls one or a child reaches one. -/
theorem reaches_eq (isBreakpoint : Symbol → Bool) (e : Expr) :
  e.reaches isBreakpoint =
    ((e.calledBreakpoint? isBreakpoint).isSome ||
      e.children.any fun c => c.reaches isBreakpoint)
  := by
  rw [reaches]
  simp

/-- Whether a tree is a re-entry. -/
def isRecur : Expr → Bool
  | recur _ => true
  | _ => false

/-- Whether a tree is a loop. -/
def isLoop : Expr → Bool
  | loop .. => true
  | _ => false

/-- Whether evaluating a tree can re-enter the innermost loop around it.  A loop inside
the tree owns the re-entries in it. -/
def recurs (e : Expr) : Bool :=
  e.isRecur || (!e.isLoop && e.children.attach.any fun ⟨c, _⟩ => c.recurs)
termination_by e.weight
decreasing_by exact weight_lt_of_mem_children ‹_›

/-- A tree re-enters a loop when it is a re-entry, or no loop and a child re-enters one. -/
theorem recurs_eq (e : Expr) :
  e.recurs = (e.isRecur || (!e.isLoop && e.children.any recurs))
  := by
  rw [recurs]
  simp

/-- A breakpoint inside a function literal: its name, and the call of it, or the bare
reference when it is not called. -/
structure Violation where
  op : Symbol
  form : Expr

/-- The breakpoint that a tree mentions itself: as the operator of a call, or as a
reference. -/
def mention? (isBreakpoint : Symbol → Bool) (e : Expr) : Option Violation :=
  match e with
  | var x => if isBreakpoint x then some ⟨x, e⟩ else none
  | call .. => (e.calledBreakpoint? isBreakpoint).map (⟨·, e⟩)
  | _ => none

/-- The body of a function literal. -/
def functionBody? : Expr → Option Expr
  | lambda _ _ body => some body
  | _ => none

/-- The body of a function literal weighs less than the literal. -/
theorem weight_lt_of_functionBody? {e body : Expr} (h : e.functionBody? = some body) :
  body.weight < e.weight
  := by
  cases e <;> simp_all [functionBody?, weight]

/-- The first breakpoint, in source order, that a tree mentions; outside function
literals of the tree only when `inside` holds. -/
def firstMention? (isBreakpoint : Symbol → Bool) (inside : Bool) (e : Expr) :
    Option Violation :=
  match _h : e.functionBody? with
  | some body => body.firstMention? isBreakpoint true
  | none =>
    (if inside then e.mention? isBreakpoint else none) <|>
      e.children.attach.findSome? fun ⟨c, _⟩ => c.firstMention? isBreakpoint inside
termination_by e.weight
decreasing_by
  · exact weight_lt_of_functionBody? _h
  · exact weight_lt_of_mem_children ‹_›

/-- The first breakpoint inside a function literal of a tree. -/
def violation? (isBreakpoint : Symbol → Bool) (e : Expr) : Option Violation :=
  e.firstMention? isBreakpoint false

end Skein.Expr
