import Skein.Eval
import Skein.Proofs.AlikeMachine

/-!
# Alike scopes

Two scopes are related for some names when these names have related values in them.  Scopes stay
related inside bindings of the same names to related values.
-/

namespace Skein

variable {R : Value → Value → Prop} {S : Symbol → Prop} {env env' : Env}

/-- Two scopes are related for some names. -/
def Env.Rel (R : Value → Value → Prop) (S : Symbol → Prop) (env env' : Env) : Prop :=
  ∀ x, S x → Option.Rel R (List.lookup x env) (List.lookup x env')

/-- What trees in the tail of a loop give is related. -/
inductive TailResult.Rel (R : Value → Value → Prop) : TailResult → TailResult → Prop where
  | value {v v' : Value} (h : R v v') : Rel R (.value v) (.value v')
  | again {vs vs' : List Value} (h : List.Forall₂ R vs vs') : Rel R (.again vs) (.again vs')

namespace Env.Rel

/-- Scopes under a weaker relation. -/
theorem imp {R' : Value → Value → Prop} (hR : ∀ v v', R v v' → R' v v')
    (h : Env.Rel R S env env') :
  Env.Rel R' S env env'
  := fun x hx => optionRel_imp hR (h x hx)

/-- Scopes stay related inside a binding of a name to related values. -/
theorem cons (x : Symbol) {v v' : Value} (hv : R v v') (h : Env.Rel R S env env') :
  Env.Rel R S ((x, v) :: env) ((x, v') :: env')
  := by
  intro y hy
  rw [List.lookup_cons, List.lookup_cons]
  split
  · exact .some hv
  · exact h y hy

/-- Scopes stay related inside related bindings. -/
theorem append {bs bs' : List (Symbol × Value)} (hbs : List.Forall₂ (Binding.Alike R) bs bs')
    (h : Env.Rel R S env env') :
  Env.Rel R S (bs ++ env) (bs' ++ env')
  := by
  induction hbs with
  | nil => exact h
  | cons hb _ ih =>
    obtain ⟨hv⟩ := hb
    exact ih.cons _ hv

/-- Scopes stay related inside a function or a loop. -/
theorem extend (names : List Symbol) {vs vs' : List Value} (hvs : List.Forall₂ R vs vs')
    (h : Env.Rel R S env env') :
  Env.Rel R S (env.extend names vs) (env'.extend names vs')
  := by
  have hzip : List.Forall₂ (Binding.Alike R) (names.zip vs) (names.zip vs') := by
    induction hvs generalizing names with
    | nil =>
      rw [List.zip_nil_right]
      exact .nil
    | cons hv _ ih =>
      cases names with
      | nil => exact .nil
      | cons x names => exact .cons (.mk hv) (ih names)
  exact append (List.rel_reverse hzip) h

end Env.Rel

/-! ### Names -/

/-- Related bindings have related values of names. -/
theorem Binding.Alike.lookup_rel {bs bs' : List (Symbol × Value)}
    (h : List.Forall₂ (Binding.Alike R) bs bs') (x : Symbol) :
  Option.Rel R (bs.lookup x) (bs'.lookup x)
  := by
  induction h with
  | nil => exact .none
  | cons hb _ ih =>
    obtain ⟨hv⟩ := hb
    rw [List.lookup_cons, List.lookup_cons]
    split
    · exact .some hv
    · exact ih

/-- Related contexts have related values of names. -/
theorem Context.Alike.lookup?_rel {c c' : Context Value} (h : Context.Alike R c c') (x : Symbol) :
  Option.Rel R (c.lookup? x) (c'.lookup? x)
  := by
  rw [Context.lookup?, Context.lookup?]
  have hframes := h.frames
  revert hframes
  generalize c.frames = fs, c'.frames = fs'
  intro hframes
  induction hframes with
  | nil => exact .none
  | cons hf _ ih =>
    rw [List.findSome?_cons, List.findSome?_cons, Frame.lookup?, Frame.lookup?]
    have hrel := Binding.Alike.lookup_rel (List.rel_reverse hf.bindings) x
    revert hrel
    generalize List.lookup x (List.reverse _) = o
    generalize List.lookup x (List.reverse _) = o'
    rintro (hv | _)
    · exact .some hv
    · exact ih

/-- Related contexts are as deep. -/
theorem Context.Alike.depth_eq {c c' : Context Value} (h : Context.Alike R c c') :
  c.depth = c'.depth
  := by
  rw [Context.depth, Context.depth]
  have hframes := h.frames
  revert hframes
  generalize c.frames = fs, c'.frames = fs'
  rintro (_ | ⟨hf, _⟩)
  · rfl
  · exact hf.depth

/-- Related contexts stay related when they drive the same execution. -/
theorem Context.Alike.driving {c c' : Context Value} (h : Context.Alike R c c') (id : Nat) :
  Context.Alike R (c.driving id) (c'.driving id)
  := Context.Alike.of_parts h.frames rfl

/-- Related globals stay related when one of them is set. -/
theorem Binding.Alike.setEntry {bs bs' : List (Symbol × Value)}
    (h : List.Forall₂ (Binding.Alike R) bs bs') (x : Symbol) {v v' : Value} (hv : R v v') :
  List.Forall₂ (Binding.Alike R) (Run.setEntry x v bs) (Run.setEntry x v' bs')
  := by
  induction h with
  | nil => exact .cons (.mk hv) .nil
  | cons hb hbs ih =>
    obtain ⟨hw⟩ := hb
    rw [Run.setEntry, Run.setEntry]
    split
    · exact .cons (.mk hv) hbs
    · exact .cons (.mk hw) ih

/-! ### Alike values -/

/-- Two scopes are alike for some names. -/
def Env.Alike (W : World) (S : Symbol → Prop) (env env' : Env) : Prop :=
  ∀ x, S x → Option.Rel (Value.Alike W) (List.lookup x env) (List.lookup x env')

/-- What trees in the tail of a loop give is alike. -/
inductive TailResult.Alike (W : World) : TailResult → TailResult → Prop where
  | value {v v' : Value} (h : Value.Alike W v v') : Alike W (.value v) (.value v')
  | again {vs vs' : List Value} (h : List.Forall₂ (Value.Alike W) vs vs') :
    Alike W (.again vs) (.again vs')

namespace Env.Alike

variable {W W' : World}

/-- Scopes stay alike when more is known. -/
theorem mono (hW : W ≤ W') (h : Env.Alike W S env env') :
  Env.Alike W' S env env'
  := Env.Rel.imp (fun _ _ hv => hv.mono hW) h

/-- Scopes stay alike inside a binding of a name to alike values. -/
theorem cons (x : Symbol) {v v' : Value} (hv : Value.Alike W v v') (h : Env.Alike W S env env') :
  Env.Alike W S ((x, v) :: env) ((x, v') :: env')
  := Env.Rel.cons x hv h

/-- Scopes stay alike inside alike bindings. -/
theorem append {bs bs' : List (Symbol × Value)}
    (hbs : List.Forall₂ (Binding.Alike (Value.Alike W)) bs bs') (h : Env.Alike W S env env') :
  Env.Alike W S (bs ++ env) (bs' ++ env')
  := Env.Rel.append hbs h

/-- Scopes stay alike inside a function or a loop. -/
theorem extend (names : List Symbol) {vs vs' : List Value}
    (hvs : List.Forall₂ (Value.Alike W) vs vs') (h : Env.Alike W S env env') :
  Env.Alike W S (env.extend names vs) (env'.extend names vs')
  := Env.Rel.extend names hvs h

end Env.Alike

end Skein
