import Skein.Native.Argument
import Skein.Value.Equality
import Mathlib.Data.List.Forall2
import Mathlib.Order.Defs.PartialOrder

/-!
# Alike values

Two runs of a program make different numbers of functions and thunks, so that these have
different numbers in the two runs, and the functions of one run may be made in larger
scopes than those of the other.  Two values are alike when they differ in no other way: a
world says which numbers stand for the same function or thunk, and two function literals
with the same body are alike when every name that the body mentions has alike values
around them.

Alike values are indistinguishable, as the linked values are of which they are a case.
-/

namespace Skein

/-- A tree mentions a name: it contains a reference to it, also inside function
literals. -/
inductive Expr.Mentions (x : Symbol) : Expr → Prop where
  | var : Mentions x (.var x)
  | child {c e : Expr} (h : c ∈ e.children) (hc : Mentions x c) : Mentions x e
  | body {name : Option Symbol} {params : List Symbol} {body : Expr} (h : Mentions x body) :
    Mentions x (.lambda name params body)

/-- What is known of two runs: which numbers of functions and thunks stand for each other,
and which executions values may settle. -/
structure World where
  /-- A number of the first run stands for a number of the second one. -/
  pairs : Nat → Nat → Prop
  /-- The executions that continuations of both runs settle. -/
  executions : Nat → Prop

/-- Worlds are ordered by what they know. -/
instance : Preorder World where
  le W W' := (∀ i j, W.pairs i j → W'.pairs i j) ∧ ∀ id, W.executions id → W'.executions id
  le_refl _ := ⟨fun _ _ h => h, fun _ h => h⟩
  le_trans _ _ _ h h' :=
    ⟨fun i j hij => h'.1 i j (h.1 i j hij), fun id hid => h'.2 id (h.2 id hid)⟩

/-! ### Parts of values -/

/-- Bindings of the same name to related values. -/
inductive Binding.Alike (R : Value → Value → Prop) : Symbol × Value → Symbol × Value → Prop
  where
  | mk {x : Symbol} {v v' : Value} (h : R v v') : Alike R (x, v) (x, v')

/-- Frames of the same names with related values. -/
inductive Frame.Alike (R : Value → Value → Prop) : Frame Value → Frame Value → Prop where
  | mk {bindings bindings' : List (Symbol × Value)} {depth : Nat}
    (h : List.Forall₂ (Binding.Alike R) bindings bindings') :
    Alike R ⟨bindings, depth⟩ ⟨bindings', depth⟩

/-- Contexts with related frames and the same execution. -/
inductive Context.Alike (R : Value → Value → Prop) : Context Value → Context Value → Prop
  where
  | mk {frames frames' : List (Frame Value)} {execution : Option Nat}
    (h : List.Forall₂ (Frame.Alike R) frames frames') :
    Alike R ⟨frames, execution⟩ ⟨frames', execution⟩

/-- Two values are alike. -/
inductive Value.Alike (W : World) : Value → Value → Prop where
  | scalar (s : Scalar) : Alike W (.scalar s) (.scalar s)
  | list {items items' : List Value} (h : List.Forall₂ (Alike W) items items') :
    Alike W (.list items) (.list items')
  | vector {items items' : List Value} (h : List.Forall₂ (Alike W) items items') :
    Alike W (.vector items) (.vector items')
  | closure {id id' : Nat} {name : Option Symbol} {params : List Symbol} {body : Expr}
    {env env' : List (Symbol × Value)} (hid : W.pairs id id')
    (henv : ∀ x, body.Mentions x →
      Option.Rel (Alike W) (List.lookup x env) (List.lookup x env')) :
    Alike W (.closure id name params body env) (.closure id' name params body env')
  | builtin (b : Builtin) : Alike W (.native (.builtin b)) (.native (.builtin b))
  | primitive (p : Primitive) : Alike W (.native (.primitive p)) (.native (.primitive p))
  | sentinel (op : Symbol) : Alike W (.native (.sentinel op)) (.native (.sentinel op))
  | awaitContinuation {id id' : Nat} {snapshot snapshot' : Context Value} {k k' : Value}
    (hid : W.pairs id id') (hs : Context.Alike (Alike W) snapshot snapshot')
    (hk : Alike W k k') :
    Alike W (.native (.awaitContinuation id snapshot k))
      (.native (.awaitContinuation id' snapshot' k'))
  | awaitFailure {id id' : Nat} {snapshot snapshot' : Context Value} {k k' : Value}
    (hid : W.pairs id id') (hs : Context.Alike (Alike W) snapshot snapshot')
    (hk : Alike W k k') :
    Alike W (.native (.awaitFailure id snapshot k)) (.native (.awaitFailure id' snapshot' k'))
  | settle {id id' : Nat} {execution : Nat} {outcome : Outcome} {target target' : Value}
    (hid : W.pairs id id') (he : W.executions execution) (ht : Alike W target target') :
    Alike W (.native (.settle id execution outcome target))
      (.native (.settle id' execution outcome target'))
  | inContext {id id' : Nat} {snapshot snapshot' : Context Value} {f f' : Value}
    (hid : W.pairs id id') (hs : Context.Alike (Alike W) snapshot snapshot')
    (hf : Alike W f f') :
    Alike W (.native (.inContext id snapshot f)) (.native (.inContext id' snapshot' f'))
  | timer (op : TimerOp) : Alike W (.native (.timer op)) (.native (.timer op))
  | instrument {id id' : Nat} (i : Instrument) (hid : W.pairs id id') :
    Alike W (.native (.instrument id i)) (.native (.instrument id' i))
  | condition {kind : ConditionKind} {message : String} {data data' : Value}
    (h : Alike W data data') :
    Alike W (.condition ⟨kind, message, data⟩) (.condition ⟨kind, message, data'⟩)
  | thunk {id id' : Nat} {resume resume' : Value} (hid : W.pairs id id')
    (h : Alike W resume resume') :
    Alike W (.thunk id resume) (.thunk id' resume')
  | atom (location : Nat) : Alike W (.atom location) (.atom location)
  | execution (id : Nat) : Alike W (.execution id) (.execution id)

section parts

variable {R : Value → Value → Prop}

/-- The bindings of alike frames. -/
theorem Frame.Alike.bindings {f f' : Frame Value} (h : Frame.Alike R f f') :
  List.Forall₂ (Binding.Alike R) f.bindings f'.bindings
  := by
  obtain ⟨h⟩ := h
  exact h

/-- The depths of alike frames. -/
theorem Frame.Alike.depth {f f' : Frame Value} (h : Frame.Alike R f f') :
  f.depth = f'.depth
  := by
  obtain ⟨_⟩ := h
  rfl

/-- The frames of alike contexts. -/
theorem Context.Alike.frames {c c' : Context Value} (h : Context.Alike R c c') :
  List.Forall₂ (Frame.Alike R) c.frames c'.frames
  := by
  obtain ⟨h⟩ := h
  exact h

/-- The executions of alike contexts. -/
theorem Context.Alike.execution {c c' : Context Value} (h : Context.Alike R c c') :
  c.execution = c'.execution
  := by
  obtain ⟨_⟩ := h
  rfl

/-- Contexts are alike when their parts are. -/
theorem Context.Alike.of_parts {c c' : Context Value}
    (hf : List.Forall₂ (Frame.Alike R) c.frames c'.frames) (he : c.execution = c'.execution) :
  Context.Alike R c c'
  := by
  obtain ⟨frames, execution⟩ := c
  obtain ⟨frames', execution'⟩ := c'
  cases he
  exact .mk hf

end parts

/-! ### Induction -/

section imp

variable {R S : Value → Value → Prop} (hRS : ∀ v v', R v v' → S v v')
include hRS

/-- Bindings under a weaker relation. -/
theorem Binding.Alike.imp {b b' : Symbol × Value} (h : Binding.Alike R b b') :
  Binding.Alike S b b'
  := by
  obtain ⟨h⟩ := h
  exact .mk (hRS _ _ h)

/-- Frames under a weaker relation. -/
theorem Frame.Alike.imp {f f' : Frame Value} (h : Frame.Alike R f f') :
  Frame.Alike S f f'
  := by
  obtain ⟨h⟩ := h
  exact .mk (h.imp fun _ _ => Binding.Alike.imp hRS)

/-- Contexts under a weaker relation. -/
theorem Context.Alike.imp {c c' : Context Value} (h : Context.Alike R c c') :
  Context.Alike S c c'
  := by
  obtain ⟨h⟩ := h
  exact .mk (h.imp fun _ _ => Frame.Alike.imp hRS)

/-- Optional values under a weaker relation. -/
theorem optionRel_imp {o o' : Option Value} (h : Option.Rel R o o') :
  Option.Rel S o o'
  := by
  cases h with
  | some h => exact .some (hRS _ _ h)
  | none => exact .none

end imp

/-- Two values are alike and related by `P`. -/
def Value.AlikeAnd (W : World) (P : Value → Value → Prop) (v v' : Value) : Prop :=
  Alike W v v' ∧ P v v'

/-- Induction on alike values, where the parts of values come with the hypotheses about
them. -/
theorem Value.Alike.induct {W : World} {P : Value → Value → Prop}
    (scalar : ∀ s, P (.scalar s) (.scalar s))
    (list : ∀ {items items'}, List.Forall₂ (AlikeAnd W P) items items' →
      P (.list items) (.list items'))
    (vector : ∀ {items items'}, List.Forall₂ (AlikeAnd W P) items items' →
      P (.vector items) (.vector items'))
    (closure : ∀ {id id' name params env env'} {body : Expr}, W.pairs id id' →
      (∀ x, body.Mentions x →
        Option.Rel (AlikeAnd W P) (List.lookup x env) (List.lookup x env')) →
      P (.closure id name params body env) (.closure id' name params body env'))
    (builtin : ∀ b, P (.native (.builtin b)) (.native (.builtin b)))
    (primitive : ∀ p, P (.native (.primitive p)) (.native (.primitive p)))
    (sentinel : ∀ op, P (.native (.sentinel op)) (.native (.sentinel op)))
    (awaitContinuation : ∀ {id id' snapshot snapshot' k k'}, W.pairs id id' →
      Context.Alike (AlikeAnd W P) snapshot snapshot' → AlikeAnd W P k k' →
      P (.native (.awaitContinuation id snapshot k))
        (.native (.awaitContinuation id' snapshot' k')))
    (awaitFailure : ∀ {id id' snapshot snapshot' k k'}, W.pairs id id' →
      Context.Alike (AlikeAnd W P) snapshot snapshot' → AlikeAnd W P k k' →
      P (.native (.awaitFailure id snapshot k)) (.native (.awaitFailure id' snapshot' k')))
    (settle : ∀ {id id' execution outcome target target'}, W.pairs id id' →
      W.executions execution → AlikeAnd W P target target' →
      P (.native (.settle id execution outcome target))
        (.native (.settle id' execution outcome target')))
    (inContext : ∀ {id id' snapshot snapshot' f f'}, W.pairs id id' →
      Context.Alike (AlikeAnd W P) snapshot snapshot' → AlikeAnd W P f f' →
      P (.native (.inContext id snapshot f)) (.native (.inContext id' snapshot' f')))
    (timer : ∀ op, P (.native (.timer op)) (.native (.timer op)))
    (instrument : ∀ {id id'} i, W.pairs id id' →
      P (.native (.instrument id i)) (.native (.instrument id' i)))
    (condition : ∀ {kind message data data'}, AlikeAnd W P data data' →
      P (.condition ⟨kind, message, data⟩) (.condition ⟨kind, message, data'⟩))
    (thunk : ∀ {id id' resume resume'}, W.pairs id id' → AlikeAnd W P resume resume' →
      P (.thunk id resume) (.thunk id' resume'))
    (atom : ∀ location, P (.atom location) (.atom location))
    (execution : ∀ id, P (.execution id) (.execution id))
    {v v' : Value} (h : Alike W v v') :
  P v v'
  := by
  refine Value.Alike.rec (motive_1 := fun v v' _ => P v v')
    (motive_2 := fun vs vs' _ => List.Forall₂ (AlikeAnd W P) vs vs')
    (motive_3 := fun o o' _ => Option.Rel (AlikeAnd W P) o o')
    (motive_4 := fun c c' _ => Context.Alike (AlikeAnd W P) c c')
    (motive_5 := fun fs fs' _ => List.Forall₂ (Frame.Alike (AlikeAnd W P)) fs fs')
    (motive_6 := fun f f' _ => Frame.Alike (AlikeAnd W P) f f')
    (motive_7 := fun bs bs' _ => List.Forall₂ (Binding.Alike (AlikeAnd W P)) bs bs')
    (motive_8 := fun b b' _ => Binding.Alike (AlikeAnd W P) b b')
    scalar (fun _ ih => list ih) (fun _ ih => vector ih) (fun hid _ ih => closure hid ih)
    builtin primitive sentinel (fun hid _ hk hs ih => awaitContinuation hid hs ⟨hk, ih⟩)
    (fun hid _ hk hs ih => awaitFailure hid hs ⟨hk, ih⟩)
    (fun hid he ht ih => settle hid he ⟨ht, ih⟩)
    (fun hid _ hf hs ih => inContext hid hs ⟨hf, ih⟩) timer (fun i hid => instrument i hid)
    (fun hd ih => condition ⟨hd, ih⟩) (fun hid hr ih => thunk hid ⟨hr, ih⟩) atom execution
    ?_ ?_ ?_ ?_ ?_ ?_ ?_ ?_ ?_ ?_ ?_ h
  · exact .nil
  · exact fun h _ ih ihs => .cons ⟨h, ih⟩ ihs
  · exact fun h ih => .some ⟨h, ih⟩
  · exact .none
  · exact fun _ ih => .mk ih
  · exact .nil
  · exact fun _ _ ih ihs => .cons ih ihs
  · exact fun _ ih => .mk ih
  · exact .nil
  · exact fun _ _ ih ihs => .cons ih ihs
  · exact fun h ih => .mk ⟨h, ih⟩

/-- Values that are alike stay alike when more is known. -/
theorem Value.Alike.mono {W W' : World} (hW : W ≤ W') {v v' : Value} (h : Alike W v v') :
  Alike W' v v'
  := by
  have snd : ∀ v v', AlikeAnd W (Alike W') v v' → Alike W' v v' := fun _ _ h => h.2
  refine Value.Alike.induct .scalar ?list ?vector ?closure .builtin .primitive .sentinel
    ?awaitContinuation ?awaitFailure ?settle ?inContext .timer ?instrument ?condition ?thunk
    .atom .execution h
  case list => exact fun hs => .list (hs.imp snd)
  case vector => exact fun hs => .vector (hs.imp snd)
  case closure =>
    exact fun hid henv => .closure (hW.1 _ _ hid) fun x hx => optionRel_imp snd (henv x hx)
  case awaitContinuation =>
    exact fun hid hs hk => .awaitContinuation (hW.1 _ _ hid) (hs.imp snd) hk.2
  case awaitFailure => exact fun hid hs hk => .awaitFailure (hW.1 _ _ hid) (hs.imp snd) hk.2
  case settle => exact fun hid he ht => .settle (hW.1 _ _ hid) (hW.2 _ he) ht.2
  case inContext => exact fun hid hs hf => .inContext (hW.1 _ _ hid) (hs.imp snd) hf.2
  case instrument => exact fun i hid => .instrument i (hW.1 _ _ hid)
  case condition => exact fun hd => .condition hd.2
  case thunk => exact fun hid hr => .thunk (hW.1 _ _ hid) hr.2

/-- A world pairs each number with at most one other. -/
def World.Injective (W : World) : Prop :=
  ∀ i j i' j', W.pairs i j → W.pairs i' j' → (i = i' ↔ j = j')

end Skein
