import Skein.Symbol.Table

/-!
# Dynamic contexts

What a program can observe without being given it: the frames of dynamic bindings, the
innermost one first, and the execution that is being driven.  `push` enters a frame and
`popTo` leaves the frames above a depth.
-/

namespace Skein

/-- Bindings that were entered together, and how many frames there are with this one. -/
structure Frame (α : Type) where
  bindings : List (Symbol × α)
  depth : Nat
deriving Inhabited

/-- The frames in force, the innermost first, and the execution that is being driven. -/
structure Context (α : Type) where
  frames : List (Frame α)
  execution : Option Nat
deriving Inhabited

/-- The value of the last binding of a name in a frame. -/
def Frame.lookup? {α : Type} (f : Frame α) (x : Symbol) : Option α :=
  f.bindings.reverse.lookup x

namespace Context

variable {α : Type}

/-- No frames and no execution. -/
def empty : Context α := ⟨[], none⟩

/-- The number of frames that the innermost frame records. -/
def depth (c : Context α) : Nat :=
  match c.frames with
  | [] => 0
  | f :: _ => f.depth

/-- The value of a name in the innermost frame that binds it. -/
def lookup? (c : Context α) (x : Symbol) : Option α := c.frames.findSome? (·.lookup? x)

/-- Enter a frame. -/
def push (c : Context α) (bindings : List (Symbol × α)) : Context α :=
  { c with frames := ⟨bindings, c.depth + 1⟩ :: c.frames }

/-- The frames that are left when those above a depth are dropped, or the depth at which
the frames run out below it. -/
def framesTo (depth : Nat) : List (Frame α) → Except Nat (List (Frame α))
  | [] => if depth = 0 then .ok [] else .error 0
  | f :: fs =>
    if f.depth = depth then .ok (f :: fs)
    else if f.depth < depth then .error f.depth
    else framesTo depth fs

/-- Drop the frames above a depth; the error is the depth that is too small. -/
def popTo (c : Context α) (depth : Nat) : Except Nat (Context α) :=
  (framesTo depth c.frames).map fun frames => { c with frames }

/-- Entering a frame adds one to the depth. -/
@[simp] theorem depth_push (c : Context α) (bindings : List (Symbol × α)) :
  (c.push bindings).depth = c.depth + 1
  := rfl

/-- Nothing lies above the depth of a context. -/
@[simp] theorem popTo_depth (c : Context α) :
  c.popTo c.depth = .ok c
  := by
  match c with
  | ⟨[], _⟩ => rfl
  | ⟨f :: fs, _⟩ => simp [popTo, depth, framesTo, Except.map]

/-- A frame is left by the depth before it. -/
theorem popTo_push (c : Context α) (bindings : List (Symbol × α)) :
  (c.push bindings).popTo c.depth = .ok c
  := by
  have h : framesTo c.depth (c.push bindings).frames = framesTo c.depth c.frames := by
    rw [push, framesTo, if_neg (Nat.succ_ne_self _), if_neg (Nat.not_lt.2 (Nat.le_succ _))]
  rw [popTo, h]
  exact c.popTo_depth

/-- The same frames with an execution. -/
def driving (c : Context α) (execution : Nat) : Context α :=
  { c with execution := some execution }

end Context

end Skein
