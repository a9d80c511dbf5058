import Skein.Proofs.Fuel

/-!
# Evaluation with enough fuel

How evaluating a tree, calling a value and evaluating some trees in turn end when there is
enough fuel.  There is one rule for each way in which a tree of a kind can end, so that a
run is put together from the runs of its parts without counting fuel.
-/

namespace Skein

open Run

/-- A property of two amounts of fuel, for calls and for trees, holds of all large
amounts. -/
def Eventually (P : Nat → Nat → Prop) : Prop := ∃ n, ∀ c f, n ≤ c → n ≤ f → P c f

namespace Eventually

variable {P Q R : Nat → Nat → Prop}

/-- What holds always holds eventually. -/
theorem of_forall (h : ∀ c f, P c f) :
  Eventually P
  := ⟨0, fun c f _ _ => h c f⟩

/-- What follows from what holds eventually holds eventually. -/
theorem mono (h : Eventually P) (hPQ : ∀ c f, P c f → Q c f) :
  Eventually Q
  := by
  obtain ⟨n, h⟩ := h
  exact ⟨n, fun c f hc hf => hPQ c f (h c f hc hf)⟩

/-- Two properties that hold eventually hold together. -/
theorem and (h : Eventually P) (h' : Eventually Q) :
  Eventually fun c f => P c f ∧ Q c f
  := by
  obtain ⟨n, h⟩ := h
  obtain ⟨k, h'⟩ := h'
  refine ⟨max n k, fun c f hc hf => ⟨h c f ?_ ?_, h' c f ?_ ?_⟩⟩ <;> omega

/-- A step down in the fuel for trees. -/
theorem succ (h : Eventually P) (hPQ : ∀ c f, P c f → Q c (f + 1)) :
  Eventually Q
  := by
  obtain ⟨n, h⟩ := h
  refine ⟨n + 1, fun c f hc hf => ?_⟩
  obtain ⟨f, rfl⟩ := Nat.exists_eq_add_of_lt hf
  apply hPQ
  apply h <;> omega

/-- A computation that ends from some amount of fuel on ends in one way. -/
theorem gives_unique {α : Type} {act : Nat → Nat → Run α} {r₁ r₂ : Ended α} {m m₁ m₂ : Machine}
    (h₁ : Eventually fun c f => (act c f).Gives m r₁ m₁)
    (h₂ : Eventually fun c f => (act c f).Gives m r₂ m₂) :
  r₁ = r₂ ∧ m₁ = m₂
  := by
  obtain ⟨n, h⟩ := h₁.and h₂
  obtain ⟨hgives₁, hgives₂⟩ := h n n (Nat.le_refl n) (Nat.le_refl n)
  exact hgives₁.unique hgives₂

end Eventually

/-- Evaluating a tree in the tail of a loop ends. -/
def Expr.TailEnds (env : Env) (e : Expr) (m : Machine) (r : Ended TailResult) (m' : Machine) :
    Prop :=
  Eventually fun c f => (e.tail (Value.call c) f env).Gives m r m'

/-- Evaluating a tree ends with a value or a condition. -/
def Expr.Ends (env : Env) (e : Expr) (m : Machine) (r : Ended Value) (m' : Machine) : Prop :=
  Expr.TailEnds env e m (r.map TailResult.value) m'

/-- Calling a value ends. -/
def Value.CallEnds (g : Value) (vs : List Value) (m : Machine) (r : Ended Value)
    (m' : Machine) : Prop :=
  Eventually fun c _ => (Value.call c g vs).Gives m r m'

/-- Evaluating some trees from left to right ends: with their values, or with the condition
that the first one raises that does not give a value. -/
inductive Expr.AllEnd (env : Env) : List Expr → Machine → Ended (List Value) → Machine → Prop
  where
  | nil {m : Machine} : AllEnd env [] m (.ok []) m
  | cons {e : Expr} {es : List Expr} {m m₁ m₂ : Machine} {v : Value} {vs : List Value}
    (h : Expr.Ends env e m (.ok v) m₁) (hs : AllEnd env es m₁ (.ok vs) m₂) :
    AllEnd env (e :: es) m (.ok (v :: vs)) m₂
  | head {e : Expr} {es : List Expr} {m m₁ : Machine} {c : Condition Value}
    (h : Expr.Ends env e m (.error c) m₁) : AllEnd env (e :: es) m (.error c) m₁
  | tail {e : Expr} {es : List Expr} {m m₁ m₂ : Machine} {v : Value} {c : Condition Value}
    (h : Expr.Ends env e m (.ok v) m₁) (hs : AllEnd env es m₁ (.error c) m₂) :
    AllEnd env (e :: es) m (.error c) m₂

/-- Evaluating the initial values of bindings ends: with the scope inside them, or with the
condition that the first one raises that does not give a value. -/
inductive Expr.BindingsEnd :
    Env → List (Symbol × Expr) → Machine → Ended Env → Machine → Prop where
  | nil {env : Env} {m : Machine} : BindingsEnd env [] m (.ok env) m
  | cons {env : Env} {x : Symbol} {e : Expr} {bs : List (Symbol × Expr)} {m m₁ m₂ : Machine}
    {v : Value} {r : Ended Env} (h : Expr.Ends env e m (.ok v) m₁)
    (hs : BindingsEnd ((x, v) :: env) bs m₁ r m₂) : BindingsEnd env ((x, e) :: bs) m r m₂
  | head {env : Env} {x : Symbol} {e : Expr} {bs : List (Symbol × Expr)} {m m₁ : Machine}
    {c : Condition Value} (h : Expr.Ends env e m (.error c) m₁) :
    BindingsEnd env ((x, e) :: bs) m (.error c) m₁

namespace Expr

variable {env : Env} {m m₁ m₂ m₃ : Machine}

/-! ### Parts of trees -/

/-- A tree that is not in the tail of a loop, with enough fuel. -/
theorem Ends.eval {e : Expr} {r : Ended Value} (h : e.Ends env m r m₁) :
  Eventually fun c f =>
    (do (← e.tail (Value.call c) f env).toValue : Run Value).Gives m r m₁
  := by
  apply Eventually.mono h
  intro c f h
  cases r with
  | ok v => exact h.bind (gives_pure v m₁)
  | error d => exact h.bind_error

/-- Trees in turn, with enough fuel. -/
theorem AllEnd.mapM {es : List Expr} {r : Ended (List Value)} (h : AllEnd env es m r m₁) :
  Eventually fun c f => (es.mapM fun e =>
    (do (← e.tail (Value.call c) f env).toValue : Run Value)).Gives m r m₁
  := by
  induction h with
  | nil => exact .of_forall fun c f => rfl
  | cons h _ ih =>
    apply (h.eval.and ih).mono
    rintro c f ⟨h, hs⟩
    rw [List.mapM_cons]
    exact h.bind (hs.bind (gives_pure _ _))
  | head h =>
    apply h.eval.mono
    intro c f h
    rw [List.mapM_cons]
    exact h.bind_error
  | tail h _ ih =>
    apply (h.eval.and ih).mono
    rintro c f ⟨h, hs⟩
    rw [List.mapM_cons]
    exact h.bind hs.bind_error

/-- Bindings, with enough fuel. -/
theorem BindingsEnd.bindAll {bs : List (Symbol × Expr)} {r : Ended Env}
    (h : BindingsEnd env bs m r m₁) :
  Eventually fun c f => (Eval.bindAll (fun env e =>
    (do (← e.tail (Value.call c) f env).toValue : Run Value)) env bs).Gives m r m₁
  := by
  induction h with
  | nil => exact .of_forall fun c f => rfl
  | cons h _ ih =>
    apply (h.eval.and ih).mono
    rintro c f ⟨h, hs⟩
    exact h.bind hs
  | head h =>
    apply h.eval.mono
    intro c f h
    exact h.bind_error

/-! ### Trees without parts -/

/-- A literal is its value. -/
theorem ends_literal (d : Datum) :
  (Expr.literal d).Ends env m (.ok (.ofDatum d)) m
  := (Eventually.of_forall (P := fun _ _ => True) fun _ _ => trivial).succ fun _ _ _ => rfl

/-- A function that the tree holds is its value. -/
theorem ends_builtin (b : Builtin) :
  (Expr.builtin b).Ends env m (.ok (.native (.builtin b))) m
  := (Eventually.of_forall (P := fun _ _ => True) fun _ _ => trivial).succ fun _ _ _ => rfl

/-- A name that is bound is its value. -/
theorem ends_var {x : Symbol} {v : Value} (h : List.lookup x env = some v) :
  (Expr.var x).Ends env m (.ok v) m
  := by
  apply (Eventually.of_forall (P := fun _ _ => True) fun _ _ => trivial).succ
  intro c f _
  have hlookup : (Run.lookup env x).Gives m (.ok v) m := by
    rw [Run.lookup, h]
    exact gives_pure v m
  exact hlookup.bind (gives_pure _ _)

/-- A function literal is a function with a fresh number. -/
theorem ends_lambda (name : Option Symbol) (params : List Symbol) (body : Expr) :
  (Expr.lambda name params body).Ends env m (.ok (.closure m.nextId name params body env))
    { m with nextId := m.nextId + 1 }
  := (Eventually.of_forall (P := fun _ _ => True) fun _ _ => trivial).succ fun _ _ _ => rfl

/-! ### Calls -/

/-- A call whose function and arguments have values. -/
theorem ends_call {g : Expr} {args : List Expr} {w : Value} {vs : List Value} {r : Ended Value}
    (hargs : AllEnd env (g :: args) m (.ok (w :: vs)) m₁) (hcall : w.CallEnds vs m₁ r m₂) :
  (Expr.call g args).Ends env m r m₂
  := by
  cases hargs with
  | cons hg hargs =>
    apply (hg.eval.and (hargs.mapM.and hcall)).succ
    rintro c f ⟨hg, hargs, hcall⟩
    apply hg.bind
    apply hargs.bind
    cases r with
    | ok v => exact hcall.bind (gives_pure _ _)
    | error d => exact hcall.bind_error

/-- A call whose function or arguments raise a condition. -/
theorem ends_call_error {g : Expr} {args : List Expr} {d : Condition Value}
    (hargs : AllEnd env (g :: args) m (.error d) m₁) :
  (Expr.call g args).Ends env m (.error d) m₁
  := by
  cases hargs with
  | head hg =>
    apply hg.eval.succ
    intro c f hg
    exact hg.bind_error
  | tail hg hargs =>
    apply (hg.eval.and hargs.mapM).succ
    rintro c f ⟨hg, hargs⟩
    exact hg.bind hargs.bind_error

/-- Calling a native function. -/
theorem callEnds_native {g : Native Value} {vs : List Value} {r : Ended Value}
    (h : Eventually fun c _ => (g.apply (Value.call c) c vs).Gives m r m₁) :
  (Value.native g).CallEnds vs m r m₁
  := by
  obtain ⟨n, h⟩ := h
  refine ⟨n + 1, fun c f hc _ => ?_⟩
  obtain ⟨k, rfl⟩ := Nat.exists_eq_add_of_lt hc
  exact h (n + k) (n + k) (by omega) (by omega)

/-- Calling a function literal: its body is evaluated with its name bound to the function
itself, and its parameters to the arguments. -/
theorem callEnds_closure {id : Nat} {name : Option Symbol} {params : List Symbol} {body : Expr}
    {scope : Env} {vs : List Value} {r : Ended Value} (hlen : vs.length = params.length)
    (h : body.Ends (Env.extend
      (match name with
        | some x => (x, .closure id name params body scope) :: scope
        | none => scope) params vs) m r m₁) :
  (Value.closure id name params body scope).CallEnds vs m r m₁
  := by
  obtain ⟨n, h⟩ := h.eval
  refine ⟨n + 1, fun c f hc _ => ?_⟩
  obtain ⟨k, rfl⟩ := Nat.exists_eq_add_of_lt hc
  have harity : (checkArity (.exactly params.length) (name.getD "fn") vs).Gives m (.ok ()) m := by
    rw [checkArity, hlen, Arity.accepts, if_pos (decide_eq_true rfl)]
    exact gives_pure () m
  exact harity.bind (h (n + k) (n + k) (by omega) (by omega))

/-! ### Trees with a tail -/

variable {r : Ended TailResult}

/-- A conditional whose test has a value. -/
theorem tailEnds_cond {test yes no : Expr} {v : Value} (htest : test.Ends env m (.ok v) m₁)
    (h : (if v.isTruthy then yes else no).TailEnds env m₁ r m₂) :
  (Expr.cond test yes no).TailEnds env m r m₂
  := by
  apply (htest.eval.and h).succ
  rintro c f ⟨htest, h⟩
  exact htest.bind h

/-- A conditional whose test raises a condition. -/
theorem ends_cond_error {test yes no : Expr} {d : Condition Value}
    (htest : test.Ends env m (.error d) m₁) :
  (Expr.cond test yes no).Ends env m (.error d) m₁
  := by
  apply htest.eval.succ
  intro c f htest
  exact htest.bind_error

/-- Bindings around a body. -/
theorem tailEnds_bind {bs : List (Symbol × Expr)} {body : Expr} {inner : Env}
    (hbs : BindingsEnd env bs m (.ok inner) m₁) (h : body.TailEnds inner m₁ r m₂) :
  (Expr.bind bs body).TailEnds env m r m₂
  := by
  apply (hbs.bindAll.and h).succ
  rintro c f ⟨hbs, h⟩
  exact hbs.bind h

/-- Bindings that raise a condition. -/
theorem ends_bind_error {bs : List (Symbol × Expr)} {body : Expr} {d : Condition Value}
    (hbs : BindingsEnd env bs m (.error d) m₁) :
  (Expr.bind bs body).Ends env m (.error d) m₁
  := by
  apply hbs.bindAll.succ
  intro c f hbs
  exact hbs.bind_error

/-- Bindings around a body, as `binding` makes them. -/
theorem tailEnds_binding {bs : List (Symbol × Expr)} {body : Expr} {inner : Env}
    (hbs : BindingsEnd env bs m (.ok inner) m₁) (h : body.TailEnds inner m₁ r m₂) :
  (Expr.binding bs body).TailEnds env m r m₂
  := by
  rw [Expr.binding]
  split
  · rename_i hnil
    rw [List.isEmpty_iff] at hnil
    subst hnil
    cases hbs
    exact h
  · exact tailEnds_bind hbs h

/-- Bindings that raise a condition, as `binding` makes them. -/
theorem ends_binding_error {bs : List (Symbol × Expr)} {body : Expr} {d : Condition Value}
    (hbs : BindingsEnd env bs m (.error d) m₁) :
  (Expr.binding bs body).Ends env m (.error d) m₁
  := by
  rw [Expr.binding]
  split
  · rename_i hnil
    rw [List.isEmpty_iff] at hnil
    subst hnil
    cases hbs
  · exact ends_bind_error hbs

/-! ### Sequences -/

/-- Trees that are evaluated for their effects, with enough fuel. -/
theorem AllEnd.runAll {es : List Expr} {vs : List Value} (h : AllEnd env es m (.ok vs) m₁) :
  Eventually fun c f => (Eval.runAll (fun env e =>
    (do (← e.tail (Value.call c) f env).toValue : Run Value)) env es).Gives m (.ok ()) m₁
  := by
  generalize hr : (Except.ok vs : Ended (List Value)) = r at h
  induction h generalizing vs with
  | nil => exact .of_forall fun c f => rfl
  | cons h _ ih =>
    apply (h.eval.and (ih rfl)).mono
    rintro c f ⟨h, hs⟩
    exact h.bind hs
  | head => cases hr
  | tail => cases hr

/-- Trees that are evaluated for their effects and raise a condition. -/
theorem AllEnd.runAll_error {es : List Expr} {d : Condition Value}
    (h : AllEnd env es m (.error d) m₁) :
  Eventually fun c f => (Eval.runAll (fun env e =>
    (do (← e.tail (Value.call c) f env).toValue : Run Value)) env es).Gives m (.error d) m₁
  := by
  generalize hr : (Except.error d : Ended (List Value)) = r at h
  induction h with
  | nil => cases hr
  | cons => cases hr
  | head h =>
    cases hr
    apply h.eval.mono
    intro c f h
    exact h.bind_error
  | tail h _ ih =>
    apply (h.eval.and (ih hr)).mono
    rintro c f ⟨h, hs⟩
    exact h.bind hs

/-- A sequence of trees and a last one. -/
theorem tailEnds_seq {es : List Expr} {last : Expr} {vs : List Value}
    (hes : AllEnd env es m (.ok vs) m₁) (h : last.TailEnds env m₁ r m₂) :
  (Expr.seq (es ++ [last])).TailEnds env m r m₂
  := by
  apply (hes.runAll.and h).succ
  rintro c f ⟨hes, h⟩
  unfold Expr.tail
  dsimp only
  rw [List.getLast?_concat, List.dropLast_concat]
  exact hes.bind h

/-- A sequence in which a tree before the last one raises a condition. -/
theorem ends_seq_error {es : List Expr} {last : Expr} {d : Condition Value}
    (hes : AllEnd env es m (.error d) m₁) :
  (Expr.seq (es ++ [last])).Ends env m (.error d) m₁
  := by
  apply hes.runAll_error.succ
  intro c f hes
  unfold Expr.tail
  dsimp only
  rw [List.getLast?_concat, List.dropLast_concat]
  exact hes.bind_error

/-- A block of more than one tree is a sequence. -/
theorem block_append {es : List Expr} (h : es ≠ []) (last : Expr) :
  Expr.block (es ++ [last]) = .seq (es ++ [last])
  := by
  rcases es with _ | ⟨e, _ | ⟨e', es⟩⟩
  · exact absurd rfl h
  · rfl
  · rfl

/-- A block of trees and a last one. -/
theorem tailEnds_block {es : List Expr} {last : Expr} {vs : List Value}
    (hes : AllEnd env es m (.ok vs) m₁) (h : last.TailEnds env m₁ r m₂) :
  (Expr.block (es ++ [last])).TailEnds env m r m₂
  := by
  by_cases hnil : es = []
  · subst hnil
    cases hes
    exact h
  · rw [block_append hnil]
    exact tailEnds_seq hes h

/-- A block in which a tree before the last one raises a condition. -/
theorem ends_block_error {es : List Expr} {last : Expr} {d : Condition Value}
    (hes : AllEnd env es m (.error d) m₁) :
  (Expr.block (es ++ [last])).Ends env m (.error d) m₁
  := by
  have hne : es ≠ [] := by
    rintro rfl
    cases hes
  rw [block_append hne]
  exact ends_seq_error hes

/-- Evaluating some trees for the value of the last one ends. -/
inductive StatementsEnd (env : Env) : List Expr → Machine → Ended TailResult → Machine → Prop
  where
  | last {e : Expr} {m m₁ : Machine} {r : Ended TailResult} (h : e.TailEnds env m r m₁) :
    StatementsEnd env [e] m r m₁
  | cons {e : Expr} {es : List Expr} {m m₁ m₂ : Machine} {v : Value} {r : Ended TailResult}
    (hne : es ≠ []) (h : e.Ends env m (.ok v) m₁) (hs : StatementsEnd env es m₁ r m₂) :
    StatementsEnd env (e :: es) m r m₂
  | head {e : Expr} {es : List Expr} {m m₁ : Machine} {d : Condition Value} (hne : es ≠ [])
    (h : e.Ends env m (.error d) m₁) : StatementsEnd env (e :: es) m (.error d) m₁

/-- Either the trees before the last one have values, or one of them raises a condition. -/
theorem StatementsEnd.split {es : List Expr} (h : StatementsEnd env es m r m₂) :
  ∃ before last, es = before ++ [last] ∧
    ((∃ vs m₁, AllEnd env before m (.ok vs) m₁ ∧ last.TailEnds env m₁ r m₂) ∨
      ∃ d, r = .error d ∧ AllEnd env before m (.error d) m₂)
  := by
  induction h with
  | last h => exact ⟨[], _, rfl, .inl ⟨[], _, .nil, h⟩⟩
  | cons hne h _ ih =>
    obtain ⟨before, last, rfl, ⟨vs, m₁, hall, hlast⟩ | ⟨d, rfl, hall⟩⟩ := ih
    · exact ⟨_ :: before, last, rfl, .inl ⟨_ :: vs, m₁, .cons h hall, hlast⟩⟩
    · exact ⟨_ :: before, last, rfl, .inr ⟨d, rfl, .tail h hall⟩⟩
  | head hne h =>
    obtain ⟨before, last, rfl⟩ := (List.eq_nil_or_concat _).resolve_left hne
    exact ⟨_ :: before, last, by rw [List.concat_eq_append]; rfl, .inr ⟨_, rfl, .head h⟩⟩

/-- A sequence ends as its trees do. -/
theorem StatementsEnd.seq {es : List Expr} (h : StatementsEnd env es m r m₂) :
  (Expr.seq es).TailEnds env m r m₂
  := by
  obtain ⟨before, last, rfl, ⟨vs, m₁, hall, hlast⟩ | ⟨d, rfl, hall⟩⟩ := h.split
  · exact tailEnds_seq hall hlast
  · exact ends_seq_error hall

/-- A block ends as its trees do. -/
theorem StatementsEnd.block {es : List Expr} (h : StatementsEnd env es m r m₂) :
  (Expr.block es).TailEnds env m r m₂
  := by
  obtain ⟨before, last, rfl, ⟨vs, m₁, hall, hlast⟩ | ⟨d, rfl, hall⟩⟩ := h.split
  · exact tailEnds_block hall hlast
  · exact ends_block_error hall

/-! ### Protected bodies -/

/-- Evaluating a body and the clause that accepts its condition ends. -/
inductive GuardEnds (env : Env) (body : Expr) (clauses : List (Clause Expr)) :
    Machine → Ended Value → Machine → Prop where
  | passed {m m₁ : Machine} {v : Value} (h : body.Ends env m (.ok v) m₁) :
    GuardEnds env body clauses m (.ok v) m₁
  | caught {m m₁ m₂ : Machine} {d : Condition Value} {clause : Clause Expr} {r : Ended Value}
    (h : body.Ends env m (.error d) m₁)
    (hclause : clauses.find? (·.selector.accepts (.condition d)) = some clause)
    (hr : clause.body.Ends ((clause.var, .condition d) :: env) m₁ r m₂) :
    GuardEnds env body clauses m r m₂
  | uncaught {m m₁ : Machine} {d : Condition Value} (h : body.Ends env m (.error d) m₁)
    (hclause : clauses.find? (·.selector.accepts (.condition d)) = none) :
    GuardEnds env body clauses m (.error d) m₁

/-- A body and its clauses, with enough fuel. -/
theorem GuardEnds.attempt {body : Expr} {clauses : List (Clause Expr)} {r : Ended Value}
    (h : GuardEnds env body clauses m r m₁) :
  Eventually fun c f =>
    let eval := fun env (e : Expr) =>
      (do (← e.tail (Value.call c) f env).toValue : Run Value)
    (Run.attempt do
      match ← Run.attempt (eval env body) with
      | .ok v => return v
      | .error d => Eval.selectClause eval env clauses d).Gives m (.ok r) m₁
  := by
  cases h with
  | passed h =>
    apply h.eval.mono
    intro c f h
    apply Gives.attempt
    apply h.attempt.bind
    exact gives_pure _ _
  | caught h hclause hr =>
    apply (h.eval.and hr.eval).mono
    rintro c f ⟨h, hr⟩
    apply Gives.attempt
    apply h.attempt.bind
    dsimp only
    unfold Eval.selectClause
    rw [hclause]
    exact hr
  | uncaught h hclause =>
    apply h.eval.mono
    intro c f h
    apply Gives.attempt
    apply h.attempt.bind
    dsimp only
    unfold Eval.selectClause
    rw [hclause]
    exact gives_raise _ _

/-- A protected body without a cleanup. -/
theorem ends_protect {body : Expr} {clauses : List (Clause Expr)} {r : Ended Value}
    (h : GuardEnds env body clauses m r m₁) :
  (Expr.protect body clauses none).Ends env m r m₁
  := by
  apply h.attempt.succ
  intro c f h
  have hprotect : (Eval.protect (fun env (e : Expr) =>
      (do (← e.tail (Value.call c) f env).toValue : Run Value)) env body clauses none).Gives
      m r m₁ := h.bind (gives_ofExcept r m₁)
  cases r with
  | ok v => exact hprotect.bind (gives_pure _ _)
  | error d => exact hprotect.bind_error

/-- A protected body with a cleanup that gives a value. -/
theorem ends_protect_cleanup {body e : Expr} {clauses : List (Clause Expr)} {r : Ended Value}
    {v : Value} (h : GuardEnds env body clauses m r m₁) (he : e.Ends env m₁ (.ok v) m₂) :
  (Expr.protect body clauses (some e)).Ends env m r m₂
  := by
  apply (h.attempt.and he.eval).succ
  rintro c f ⟨h, he⟩
  have hprotect : (Eval.protect (fun env (e : Expr) =>
      (do (← e.tail (Value.call c) f env).toValue : Run Value)) env body clauses (some e)).Gives
      m r m₂ := h.bind (he.bind (gives_ofExcept r m₂))
  cases r with
  | ok v => exact hprotect.bind (gives_pure _ _)
  | error d => exact hprotect.bind_error

/-- A protected body with a cleanup that raises a condition. -/
theorem ends_protect_cleanup_error {body e : Expr} {clauses : List (Clause Expr)}
    {r : Ended Value} {d : Condition Value} (h : GuardEnds env body clauses m r m₁)
    (he : e.Ends env m₁ (.error d) m₂) :
  (Expr.protect body clauses (some e)).Ends env m (.error d) m₂
  := by
  apply (h.attempt.and he.eval).succ
  rintro c f ⟨h, he⟩
  have hprotect : (Eval.protect (fun env (e : Expr) =>
      (do (← e.tail (Value.call c) f env).toValue : Run Value)) env body clauses (some e)).Gives
      m (.error d) m₂ := h.bind he.bind_error
  exact hprotect.bind_error

/-! ### Definitions, re-entries and loops -/

/-- A definition whose tree has a value. -/
theorem ends_define {x : Symbol} {e : Expr} {v : Value} (he : e.Ends env m (.ok v) m₁)
    (hx : (Run.define x v).Gives m₁ (.ok ()) m₂) :
  (Expr.define x e).Ends env m (.ok v) m₂
  := by
  apply he.eval.succ
  intro c f he
  exact he.bind (hx.bind (gives_pure _ _))

/-- A definition whose tree raises a condition. -/
theorem ends_define_error {x : Symbol} {e : Expr} {d : Condition Value}
    (he : e.Ends env m (.error d) m₁) :
  (Expr.define x e).Ends env m (.error d) m₁
  := by
  apply he.eval.succ
  intro c f he
  exact he.bind_error

/-- A re-entry whose trees have values. -/
theorem tailEnds_recur {es : List Expr} {vs : List Value} (hes : AllEnd env es m (.ok vs) m₁) :
  (Expr.recur es).TailEnds env m (.ok (.again vs)) m₁
  := by
  apply hes.mapM.succ
  intro c f hes
  exact hes.bind (gives_pure _ _)

/-- A re-entry whose trees raise a condition. -/
theorem ends_recur_error {es : List Expr} {d : Condition Value}
    (hes : AllEnd env es m (.error d) m₁) :
  (Expr.recur es).Ends env m (.error d) m₁
  := by
  apply hes.mapM.succ
  intro c f hes
  exact hes.bind_error

/-- Repeating the body of a loop ends, where the loop stands in a scope. -/
inductive LoopEnds (scope : Env) (names : List Symbol) (body : Expr) :
    Env → Machine → Ended Value → Machine → Prop where
  | done {env : Env} {m m₁ : Machine} {r : Ended Value} (h : body.Ends env m r m₁) :
    LoopEnds scope names body env m r m₁
  | again {env : Env} {m m₁ m₂ : Machine} {vs : List Value} {r : Ended Value}
    (h : body.TailEnds env m (.ok (.again vs)) m₁)
    (hs : LoopEnds scope names body (scope.extend names vs) m₁ r m₂) :
    LoopEnds scope names body env m r m₂

/-- Repeating the body of a loop, with enough fuel for its body and its length. -/
theorem LoopEnds.repeatLoop {scope : Env} {names : List Symbol} {body : Expr} {r : Ended Value}
    (h : LoopEnds scope names body env m r m₁) :
  ∃ n, ∀ c f k, n ≤ c → n ≤ f → n ≤ k →
    (Eval.repeatLoop (Expr.tail (Value.call c) f · body) (scope.extend names) k env).Gives m
      (r.map TailResult.value) m₁
  := by
  induction h with
  | @done env m m₁ r h =>
    obtain ⟨n, h⟩ := h
    refine ⟨n + 1, fun c f k hc hf hk => ?_⟩
    obtain ⟨k, rfl⟩ := Nat.exists_eq_add_of_lt hk
    have hbody := h c f (by omega) (by omega)
    cases r with
    | ok v => exact hbody.bind (gives_pure _ _)
    | error d => exact hbody.bind_error
  | again h _ ih =>
    obtain ⟨n, h⟩ := h
    obtain ⟨n', ih⟩ := ih
    refine ⟨max n n' + 1, fun c f k hc hf hk => ?_⟩
    obtain ⟨k, rfl⟩ := Nat.exists_eq_add_of_lt hk
    apply (h c f (by omega) (by omega)).bind
    apply ih c f <;> omega

/-- A loop. -/
theorem ends_loop {bs : List (Symbol × Expr)} {body : Expr} {first : Env} {r : Ended Value}
    (hbs : BindingsEnd env bs m (.ok first) m₁)
    (h : LoopEnds env (bs.map (·.1)) body first m₁ r m₂) :
  (Expr.loop bs body).Ends env m r m₂
  := by
  obtain ⟨n, h⟩ := h.repeatLoop
  have h : Eventually fun c f =>
      (Eval.repeatLoop (Expr.tail (Value.call c) f · body) (env.extend (bs.map (·.1))) f
        first).Gives m₁ (r.map TailResult.value) m₂ :=
    ⟨n, fun c f hc hf => h c f f hc hf hf⟩
  apply (hbs.bindAll.and h).succ
  rintro c f ⟨hbs, h⟩
  exact hbs.bind h

/-- A loop whose initial values raise a condition. -/
theorem ends_loop_error {bs : List (Symbol × Expr)} {body : Expr} {d : Condition Value}
    (hbs : BindingsEnd env bs m (.error d) m₁) :
  (Expr.loop bs body).Ends env m (.error d) m₁
  := by
  apply hbs.bindAll.succ
  intro c f hbs
  exact hbs.bind_error

end Expr

end Skein
