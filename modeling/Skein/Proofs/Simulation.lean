import Skein.Proofs.AlikeEnds
import Skein.Proofs.FreshNames

/-!
# Lowered code follows direct runs

What it means that the code of a tree follows a direct run of the tree.  The tree and its
code stand in scopes that are alike for the names of the body, and the names that the
lowering has minted stand for the continuations and the head of the loop around the tree.

Where the continuations go on from what the direct run gives, the code completes, or it
raises what the direct run raises before anything is suspended.  In that second case the
code is guarded, so that the condition gets to the same continuation.
-/

namespace Skein

open Coroutine

variable {own : Nat} {G : Aim} {U : Symbol → Prop} {W W' : World}

/-- The context of the last suspension of a direct run, and the one that wraps the step of
the lowered code, are alike. -/
def LastAlike (W : World) (last wrap : Option (Context Value)) : Prop :=
  Option.Rel (Context.Alike (Value.Alike W)) last wrap

/-- Contexts of last suspensions stay alike. -/
theorem LastAlike.mono (hW : W ≤ W') {last wrap : Option (Context Value)}
    (h : LastAlike W last wrap) :
  LastAlike W' last wrap
  := by
  cases h with
  | some h => exact .some (h.mono hW)
  | none => exact .none

/-- Alike conditions are alike as values. -/
theorem Condition.Alike.value {c c' : Condition Value} (h : Condition.Alike W c c') :
  Value.Alike W (.condition c) (.condition c')
  := by
  obtain ⟨h⟩ := h
  exact .condition h

/-! ### Continuations -/

/-- A continuation goes on from a value: it is called with a value alike to it. -/
def Value.Accepts (own : Nat) (G : Aim) (W : World) (k v : Value)
    (last : Option (Context Value)) (m : Machine) : Prop :=
  ∀ {W' v' wrap m'}, W ≤ W' → Value.Alike W' v v' → LastAlike W' last wrap →
    Machine.Alike own 0 W' m m' → k.Delivers G wrap [v'] m'

/-- The head of a loop goes on from the values that the loop is entered anew with: it is
called in the step after the one that comes to the thunk. -/
def Value.Enters (own : Nat) (G : Aim) (W : World) (head : Value) (arity : Nat)
    (vs : List Value) (last : Option (Context Value)) (m : Machine) : Prop :=
  ∀ {W' vs' wrap m'}, W ≤ W' → vs.length = arity → List.Forall₂ (Value.Alike W') vs vs' →
    LastAlike W' last wrap → Machine.Alike own 0 W' m m' →
    head.Delivers G wrap vs' (m'.reenter wrap)

/-- Where the run of a tree can go on: the continuations for its value and its error, and
the head of the loop around it with the number of its values. -/
structure Exits where
  success : Value
  failure : Value
  head : Value
  arity : Nat

/-- The exits go on from what a part of a run gives. -/
def Exits.Take (own : Nat) (G : Aim) (W : World) (x : Exits) (r : Ended Yield)
    (last : Option (Context Value)) (m : Machine) : Prop :=
  match r with
  | .ok (.value v) => x.success.Accepts own G W v last m
  | .ok (.again vs) => x.head.Enters own G W x.arity vs last m
  | .ok (.values _) => True
  | .ok (.scope _) => True
  | .error d => x.failure.Accepts own G W (.condition d) last m

section exits

variable {last : Option (Context Value)} {m : Machine}

/-- A continuation goes on when more is known. -/
theorem Value.Accepts.mono (hW : W ≤ W') {k v : Value} (h : k.Accepts own G W v last m) :
  k.Accepts own G W' v last m
  := fun hW' hv hlast hm => h (le_trans hW hW') hv hlast hm

/-- Exits go on when more is known. -/
theorem Exits.Take.mono (hW : W ≤ W') {x : Exits} {r : Ended Yield}
    (h : x.Take own G W r last m) :
  x.Take own G W' r last m
  := by
  unfold Exits.Take at h ⊢
  rcases r with d | v | vs | vs | env
  · exact Value.Accepts.mono hW h
  · exact Value.Accepts.mono hW h
  · exact fun hW' hlen hvs hlast hm => h (le_trans hW hW') hlen hvs hlast hm
  · trivial
  · trivial

end exits

/-! ### Code -/

/-- Code follows a run that gives `r`: it completes, or it raises a condition alike to the
one that the run raises, before anything is suspended. -/
inductive Expr.Reaches (own : Nat) (G : Aim) (W : World)
    (wrap : Option (Context Value)) (env : Env) (code : Expr) (m : Machine) (r : Ended Yield)
    (last₁ : Option (Context Value)) (m₁ : Machine) : Prop where
  | completes (h : code.Completes G wrap env m)
  | escapes {W' : World} {d d' : Condition Value} {m' : Machine} (hr : r = .error d)
    (hW : W ≤ W') (hlast : LastAlike W' last₁ wrap) (hd : Condition.Alike W' d d')
    (hm : Machine.Alike own 0 W' m₁ m') (h : code.Ends env m (.error d') m')

namespace Expr.Reaches

variable {wrap last₁ : Option (Context Value)} {env env' : Env} {code : Expr}
  {m m₁ m' : Machine} {r : Ended Yield}

/-- Code follows a run when less is known. -/
theorem mono (hW : W ≤ W') (h : code.Reaches own G W' wrap env m r last₁ m₁) :
  code.Reaches own G W wrap env m r last₁ m₁
  := by
  cases h with
  | completes h => exact .completes h
  | escapes hr hW' hlast hd hm h => exact .escapes hr (le_trans hW hW') hlast hd hm h

/-- Code inside bindings. -/
theorem binding {bs : List (Symbol × Expr)} (h : code.Reaches own G W wrap env' m' r last₁ m₁)
    (hbs : Expr.BindingsEnd env bs m (.ok env') m') :
  (Expr.binding bs code).Reaches own G W wrap env m r last₁ m₁
  := by
  cases h with
  | completes h => exact .completes (h.binding hbs)
  | escapes hr hW hlast hd hm h =>
    exact .escapes hr hW hlast hd hm (Expr.tailEnds_binding hbs h)

/-- Code after some trees. -/
theorem block {es : List Expr} {vs : List Value}
    (h : code.Reaches own G W wrap env m' r last₁ m₁)
    (hes : Expr.AllEnd env es m (.ok vs) m') :
  (Expr.block (es ++ [code])).Reaches own G W wrap env m r last₁ m₁
  := by
  cases h with
  | completes h => exact .completes (h.block hes)
  | escapes hr hW hlast hd hm h => exact .escapes hr hW hlast hd hm (Expr.tailEnds_block hes h)

/-- Code in a branch. -/
theorem cond {test yes no : Expr} {v : Value}
    (h : (if v.isTruthy then yes else no).Reaches own G W wrap env m' r last₁ m₁)
    (htest : test.Ends env m (.ok v) m') :
  (Expr.cond test yes no).Reaches own G W wrap env m r last₁ m₁
  := by
  cases h with
  | completes h => exact .completes (h.cond htest)
  | escapes hr hW hlast hd hm h => exact .escapes hr hW hlast hd hm (Expr.tailEnds_cond htest h)

end Expr.Reaches

/-! ### Scopes -/

/-- A minted name stands for a value in the scope of some code. -/
structure Stands (U : Symbol → Prop) (t : SymbolTable) (env : Env) (y : Symbol) (v : Value) :
    Prop where
  known : y ∈ t.names
  minted : ¬ U y
  lookup : List.lookup y env = some v

/-- The scopes of a tree and of its code fit together: they are alike for the names of the
body, and what the lowering knows of the scope is so. -/
structure Fits (U : Symbol → Prop) (W : World) (t : SymbolTable) (s : Scope) (env env' : Env)
    (x : Exits) : Prop where
  known : ∀ y, U y → y ∈ t.names
  alike : Env.Alike W U env env'
  success : Stands U t env' s.success x.success
  failure : Stands U t env' s.failure x.failure
  head : ∀ h ∈ s.head, Stands U t env' h.name x.head ∧ h.arity = x.arity
  bound : ∀ y ∈ s.bound, (List.lookup y env').isSome = true

section scopes

variable {t t' : SymbolTable} {s : Scope} {env env' : Env} {x : Exits} {y : Symbol}

/-- A binding of another name does not hide a name. -/
theorem lookup_cons_of_ne {y z : Symbol} (h : z ≠ y) (v : Value) (env : Env) :
  List.lookup z ((y, v) :: env) = List.lookup z env
  := by
  rw [List.lookup_cons, beq_eq_false_iff_ne.2 h]

/-- A name is bound to the value of its innermost binding. -/
theorem lookup_cons_self (y : Symbol) (v : Value) (env : Env) :
  List.lookup y ((y, v) :: env) = some v
  := by
  rw [List.lookup_cons, beq_self_eq_true]

/-- A name is bound inside one more binding. -/
theorem isSome_lookup_cons {z : Symbol} (v : Value) (h : (List.lookup z env).isSome = true) :
  (List.lookup z ((y, v) :: env)).isSome = true
  := by
  by_cases hz : z = y
  · subst hz
    rw [lookup_cons_self]
    rfl
  · rw [lookup_cons_of_ne hz]
    exact h

/-- A name stands for its value when more names have been minted. -/
theorem Stands.within (ht : t.Within t') {v : Value} (h : Stands U t env y v) :
  Stands U t' env y v
  := ⟨ht y h.known, h.minted, h.lookup⟩

/-- A name stands for its value inside a binding of another name. -/
theorem Stands.cons {z : Symbol} {v : Value} (h : Stands U t env z v) (hy : z ≠ y) (u : Value) :
  Stands U t ((y, u) :: env) z v
  := ⟨h.known, h.minted, (lookup_cons_of_ne hy u env).trans h.lookup⟩

/-- A name stands for its value inside a binding of a name of the body. -/
theorem Stands.user {z : Symbol} {v : Value} (h : Stands U t env z v) (hy : U y) (u : Value) :
  Stands U t ((y, u) :: env) z v
  := by
  apply h.cons
  rintro rfl
  exact h.minted hy

/-- A name stands for its value inside a binding of a name that is minted later. -/
theorem Stands.fresh {z : Symbol} {v : Value} (h : Stands U t env z v) (hy : y ∉ t.names)
    (u : Value) :
  Stands U t ((y, u) :: env) z v
  := by
  apply h.cons
  rintro rfl
  exact hy h.known

/-- Scopes inside a binding of a minted name stay alike for the names of the body. -/
theorem Env.Alike.fresh (h : Env.Alike W U env env') (hy : ¬ U y) (u : Value) :
  Env.Alike W U env ((y, u) :: env')
  := by
  intro z hz
  rw [lookup_cons_of_ne]
  · exact h z hz
  · rintro rfl
    exact hy hz

/-- One more name is bound. -/
theorem Coroutine.Scope.mem_bound_binding {z : Symbol} :
  z ∈ (s.binding [y]).bound ↔ z = y ∨ z ∈ s.bound
  := List.mem_cons

namespace Fits

/-- Scopes fit when more is known. -/
theorem mono (h : Fits U W t s env env' x) (hW : W ≤ W') :
  Fits U W' t s env env' x
  := { h with alike := h.alike.mono hW }

/-- Scopes fit when more names have been minted. -/
theorem within (h : Fits U W t s env env' x) (ht : t.Within t') :
  Fits U W t' s env env' x
  where
  known y hy := ht y (h.known y hy)
  alike := h.alike
  success := h.success.within ht
  failure := h.failure.within ht
  head z hz := ⟨(h.head z hz).1.within ht, (h.head z hz).2⟩
  bound := h.bound

/-- A name that is still to be minted is none of the body. -/
theorem not_user (h : Fits U W t s env env' x) (hy : y ∉ t.names) :
  ¬ U y
  := fun hU => hy (h.known y hU)

/-- Scopes fit inside a binding of a name that is minted later. -/
theorem hide (h : Fits U W t s env env' x) (hy : y ∉ t.names) (u : Value) :
  Fits U W t s env ((y, u) :: env') x
  where
  known := h.known
  alike := h.alike.fresh (h.not_user hy) u
  success := h.success.fresh hy u
  failure := h.failure.fresh hy u
  head z hz := ⟨(h.head z hz).1.fresh hy u, (h.head z hz).2⟩
  bound z hz := isSome_lookup_cons u (h.bound z hz)

/-- A name that is bound in the scope of the code may count as bound. -/
theorem binding (h : Fits U W t s env env' x) (hy : (List.lookup y env').isSome = true) :
  Fits U W t (s.binding [y]) env env' x
  := by
  refine { h with bound := ?_ }
  intro z hz
  rcases Coroutine.Scope.mem_bound_binding.1 hz with rfl | hz
  · exact hy
  · exact h.bound z hz

/-- Scopes fit inside a binding of a name that has just been minted. -/
theorem fresh (h : Fits U W t s env env' x) (hy : y ∉ t.names) (ht : t.Within t') (u : Value) :
  Fits U W t' (s.binding [y]) env ((y, u) :: env') x
  := by
  apply ((h.hide hy u).within ht).binding
  rw [lookup_cons_self]
  rfl

/-- Scopes fit inside a binding of a name of the body to alike values. -/
theorem user (h : Fits U W t s env env' x) (hy : U y) {v v' : Value}
    (hv : Value.Alike W v v') :
  Fits U W t (s.binding [y]) ((y, v) :: env) ((y, v') :: env') x
  := by
  have hfits : Fits U W t s ((y, v) :: env) ((y, v') :: env') x := {
    known := h.known
    alike := h.alike.cons y hv
    success := h.success.user hy v'
    failure := h.failure.user hy v'
    head z hz := ⟨(h.head z hz).1.user hy v', (h.head z hz).2⟩
    bound z hz := isSome_lookup_cons v' (h.bound z hz) }
  apply hfits.binding
  rw [lookup_cons_self]
  rfl

/-- Scopes fit where the value goes to a continuation with a name that has just been
minted. -/
theorem delivering (h : Fits U W t s env env' x) (hy : y ∉ t.names) (hy' : y ∈ t'.names)
    (ht : t.Within t') (k : Value) :
  Fits U W t' (s.delivering y) env ((y, k) :: env') { x with success := k }
  := by
  have hfits := h.fresh hy ht k
  exact { hfits with
    success := ⟨hy', h.not_user hy, lookup_cons_self y k env'⟩ }

end Fits

end scopes

/-! ### Guarded code -/

section guarded

variable {t t' : SymbolTable} {wrap last₁ : Option (Context Value)} {env : Env}
  {body code : Expr} {failure : Symbol} {f : Value} {m m₁ : Machine} {r : Ended Yield}

/-- Calling a function that a name stands for with a tree that has a value. -/
theorem Value.Delivers.send {k : Symbol} {g v : Value} {e : Expr} {m' : Machine}
    (h : g.Delivers G wrap [v] m') (hk : List.lookup k env = some g)
    (he : e.Ends env m (.ok v) m') :
  (Expr.send k e).Completes G wrap env m
  := h.call (.cons (Expr.ends_var hk) (.cons he .nil))

/-- Guarded code completes when the continuation for errors goes on from what the code may
raise. -/
theorem Expr.Reaches.guarded (h : body.Reaches own G W wrap env m r last₁ m₁)
    (hcode : Coroutine.guarded body failure t = .ok code t')
    (hf : Stands U t env failure f)
    (htake : ∀ d, r = .error d → f.Accepts own G W (.condition d) last₁ m₁) :
  code.Completes G wrap env m
  := by
  obtain ⟨e, t₁, he, hcode⟩ := Compiling.bind_eq_ok_iff.1 hcode
  obtain ⟨rfl, rfl⟩ := Compiling.pure_eq_ok_iff.1 hcode
  obtain ⟨hfresh, -, -⟩ := Compiling.fresh_spec he
  cases h with
  | completes h =>
    obtain ⟨u, m', hends, hr⟩ := h
    exact ⟨u, m', Expr.ends_protect (.passed hends), hr⟩
  | @escapes W' d d' m' hr hW hlast hd hm h =>
    have hvar : (Expr.var e).Ends ((e, .condition d') :: env) m' (.ok (.condition d')) m' :=
      Expr.ends_var (lookup_cons_self e _ env)
    obtain ⟨u, m'', hsend, hrest⟩ :=
      (htake d hr hW hd.value hlast hm).send (hf.fresh hfresh _).lookup hvar
    have hfind : [Clause.mk Selector.any e (Expr.send failure (.var e))].find?
        (·.selector.accepts (.condition d')) = some ⟨.any, e, .send failure (.var e)⟩ := rfl
    exact ⟨u, m'', Expr.ends_protect (.caught h hfind hsend), hrest⟩

/-- The exits go on from the conditions that a run raises. -/
theorem Exits.Take.error {x : Exits} (h : x.Take own G W r last₁ m₁) :
  ∀ d, r = .error d → x.failure.Accepts own G W (.condition d) last₁ m₁
  := by
  rintro d rfl
  exact h

/-- A function of one value with a guarded body goes on from a value when its body follows
the rest of the run. -/
theorem Value.Accepts.of_guarded {id : Nat} {param : Symbol} {v : Value}
    {last : Option (Context Value)} {x : Exits}
    (hcode : Coroutine.guarded body failure t = .ok code t')
    (hf : Stands U t env failure x.failure) (hparam : failure ≠ param)
    (htake : x.Take own G W r last₁ m₁)
    (h : ∀ {W' v' wrap m'}, W ≤ W' → Value.Alike W' v v' → LastAlike W' last wrap →
      Machine.Alike own 0 W' m m' →
      body.Reaches own G W' wrap ((param, v') :: env) m' r last₁ m₁) :
  (Value.closure id none [param] code env).Accepts own G W v last m
  := by
  intro W' v' wrap m' hW hv hlast hm
  apply Expr.Completes.delivers rfl
  exact (h hW hv hlast hm).guarded hcode (hf.cons hparam v') (htake.mono hW).error

/-- What a function of one value with a guarded body is. -/
theorem Coroutine.receiver_spec {param : Symbol} {cont : Expr}
    (hcont : Coroutine.receiver param body failure t = .ok cont t') :
  ∃ code, cont = .lambda none [param] code ∧
    Coroutine.guarded body failure t = .ok code t'
  := by
  obtain ⟨code, t₁, hcode, hcont⟩ := Compiling.bind_eq_ok_iff.1 hcont
  obtain ⟨rfl, rfl⟩ := Compiling.pure_eq_ok_iff.1 hcont
  exact ⟨code, rfl, hcode⟩

end guarded

end Skein
