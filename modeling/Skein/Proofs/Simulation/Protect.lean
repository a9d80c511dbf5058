import Skein.Proofs.Simulation.Bindings
import Skein.Proofs.Simulation.Sequences

/-!
# Protected bodies

The code of a protected body follows direct runs when the code of the body, of its clauses
and of its cleanup does.  The continuations that the body gets go on from what the body
gives, when those around it go on from what comes of it.
-/

namespace Skein

open Coroutine

variable {own : Nat} {G : Aim} {U : Symbol → Prop} {W W' : World}
  {inner : Bool} {env : Env} {last last₁ last₂ last₃ : Option (Context Value)}
  {m m₁ m₂ m₃ : Machine} {d : Condition Value}

/-! ### A tree and a last one -/

/-- A tree that is followed, and after it one that has a fixed end. -/
theorem Expr.Followed.before {e final : Expr} {v : Value} {r r' : Ended Value} {m' : Machine}
    {env' : Env} {wrap : Option (Context Value)} {t t' : SymbolTable} {s : Scope} {code : Expr}
    {x : Exits} (he : e.Followed own G U inner env last m (.ok (.value v)) last₁ m₁)
    (hplain : ¬ e.Needs inner → last₁ = last ∧ e.Ends env m (.ok v) m₁)
    (hU : ¬ e.Needs inner → ∀ y, e.Mentions y → U y) (hfinal : ¬ final.Needs inner)
    (hs : s.head.isSome = inner) (hfit : Fits U W t s env env' x)
    (hm : Machine.Alike own 0 W m m') (hlast : LastAlike W last wrap)
    (htake : x.Take own G W (r.map .value) last₁ m₁)
    (hcode : handOver Table.default s (.block [e, final]) t = .ok code t')
    (hr : Ended.Alike W r r') (hends : ∀ m, final.Ends env' m r' m)
    (hhidden : ∀ {y} u m, y ∉ t.names → final.Ends ((y, u) :: env') m r' m) :
  code.Reaches own G W wrap env' m' (r.map .value) last₁ m₁
  := by
  rw [handOver_block (List.cons_ne_nil e [final])] at hcode
  have hfinal : ¬ needsLowering Table.default s final = true :=
    mt (needsLowering_iff hs final).1 hfinal
  rw [lowerSeq] at hcode
  split at hcode
  · rename_i hn
    have hn := not_needs_of_not hs hn
    rw [lowerSeq_of_not_needs (List.forall_mem_singleton.2 hfinal)] at hcode
    obtain ⟨rfl, -⟩ := Compiling.pure_eq_ok_iff.1 hcode
    obtain ⟨rfl, hends'⟩ := hplain hn
    obtain ⟨W', _, m₁', hW, ⟨hv⟩, hm₁, hends'⟩ := hends'.agree (hU hn) hfit.alike hm
    apply Expr.Reaches.send htake hfit.success.lookup hW (hr.mono hW) hm₁ (hlast.mono hW)
    have hall : Expr.AllEnd env' [e] m' (.ok [_]) m₁' := .cons hends' .nil
    exact Expr.tailEnds_block hall (hends m₁')
  · rename_i hn
    have hn := needs_of_not_not hs hn
    rw [if_neg (by simp)] at hcode
    obtain ⟨k, t₁, hk, hcode⟩ := Compiling.bind_eq_ok_iff.1 hcode
    obtain ⟨ignored, t₂, hignored, hcode⟩ := Compiling.bind_eq_ok_iff.1 hcode
    obtain ⟨after, t₃, hafter, hcode⟩ := Compiling.bind_eq_ok_iff.1 hcode
    obtain ⟨cont, t₄, hcont, hcode⟩ := Compiling.bind_eq_ok_iff.1 hcode
    obtain ⟨code', t₅, hcode', hcode⟩ := Compiling.bind_eq_ok_iff.1 hcode
    obtain ⟨rfl, -⟩ := Compiling.pure_eq_ok_iff.1 hcode
    obtain ⟨hk, hk', ht₁⟩ := Compiling.fresh_spec hk
    obtain ⟨hi, hi', ht₂⟩ := Compiling.fresh_spec hignored
    have hi : ignored ∉ t.names := fun hmem => hi (ht₁ ignored hmem)
    rw [handOver_block (List.cons_ne_nil final []), lowerSeq_of_not_needs (s := s.binding _)
      (List.forall_mem_singleton.2 hfinal)] at hafter
    obtain ⟨rfl, rfl⟩ := Compiling.pure_eq_ok_iff.1 hafter
    apply Expr.Reaches.completes
    refine he.delivering hn hs hfit hm hlast htake (ht₁.trans ht₂) hk (ht₂ k hk') hcont hcode'
      ?_ ?_
    · rintro rfl
      exact hi hfit.failure.known
    · intro W' v' wrap m' hW hv hlast hm
      exact .send (htake.mono hW) (hfit.success.fresh hi v').lookup (le_refl W') (hr.mono hW) hm
        hlast (hhidden v' m' hi)

/-- A tree that is followed and raises a condition, whatever comes after it. -/
theorem Expr.Followed.before_error {e final : Expr} {m' : Machine} {env' : Env}
    {wrap : Option (Context Value)} {t t' : SymbolTable} {s : Scope} {code : Expr} {x : Exits}
    (he : e.Followed own G U inner env last m (.error d) last₁ m₁)
    (hplain : ¬ e.Needs inner → last₁ = last ∧ e.Ends env m (.error d) m₁)
    (hU : ¬ e.Needs inner → ∀ y, e.Mentions y → U y)
    (hs : s.head.isSome = inner) (hfit : Fits U W t s env env' x)
    (hm : Machine.Alike own 0 W m m') (hlast : LastAlike W last wrap)
    (htake : x.Take own G W (.error d) last₁ m₁)
    (hcode : handOver Table.default s (.block [e, final]) t = .ok code t') :
  code.Reaches own G W wrap env' m' (.error d) last₁ m₁
  := by
  rw [handOver_block (List.cons_ne_nil e [final])] at hcode
  apply Expr.StatementsFollowed.head (List.cons_ne_nil final []) hU hplain he hs hfit _ .nil hm
    hlast htake hcode
  intro e he
  cases he

/-! ### Cleanups -/

/-- What the cleanup makes of the end of a body and its clauses. -/
inductive Closes (own : Nat) (G : Aim) (U : Symbol → Prop) (inner : Bool) (env : Env) :
    Option Expr → Option (Context Value) → Machine → (r r' : Ended Value) →
    Option (Context Value) → Machine → Prop where
  | none {last : Option (Context Value)} {m : Machine} {r : Ended Value} :
    Closes own G U inner env none last m r r last m
  | value {e : Expr} {v : Value} {last last₁ : Option (Context Value)} {m m₁ : Machine}
    {r : Ended Value} (hU : ¬ e.Needs inner → ∀ y, e.Mentions y → U y)
    (hplain : ¬ e.Needs inner → last₁ = last ∧ e.Ends env m (.ok v) m₁)
    (he : e.Followed own G U inner env last m (.ok (.value v)) last₁ m₁) :
    Closes own G U inner env (some e) last m r r last₁ m₁
  | error {e : Expr} {d : Condition Value} {last last₁ : Option (Context Value)}
    {m m₁ : Machine} {r : Ended Value} (hU : ¬ e.Needs inner → ∀ y, e.Mentions y → U y)
    (hplain : ¬ e.Needs inner → last₁ = last ∧ e.Ends env m (.error d) m₁)
    (he : e.Followed own G U inner env last m (.error d) last₁ m₁) :
    Closes own G U inner env (some e) last m r (.error d) last₁ m₁
  /-- Nothing goes on from the machine. -/
  | gone {cleanup : Option Expr} {last : Option (Context Value)} {m : Machine} {r : Ended Value}
    (hgone : ∀ W m', ¬ Machine.Alike own 0 W m m') :
    Closes own G U inner env cleanup last m r r last m

/-- A tree without parts need not be lowered. -/
theorem not_needs_of_isAtom {e : Expr} (h : e.isAtom = true) :
  ¬ e.Needs inner
  := by
  rw [Expr.Needs, Expr.reaches_eq, Expr.recurs_eq]
  cases e with
  | literal d => cases inner <;> exact Bool.false_ne_true
  | builtin b => cases inner <;> exact Bool.false_ne_true
  | var y => cases inner <;> exact Bool.false_ne_true
  | _ => cases h

/-- A call of a function that the tree holds need not be lowered when its argument need
not be. -/
theorem not_needs_call_builtin (b : Builtin) {e : Expr} (h : ¬ e.Needs inner) :
  ¬ (Expr.call (.builtin b) [e]).Needs inner
  := by
  have hb : ¬ (Expr.builtin b).Needs inner := not_needs_of_isAtom rfl
  rw [Expr.Needs, Bool.not_eq_true, Bool.or_eq_false_iff, Bool.and_eq_false_iff] at h hb ⊢
  rw [Expr.reaches_eq, Expr.recurs_eq]
  simp only [Expr.calledBreakpoint?, Expr.children, Expr.isRecur, Expr.isLoop, List.any_cons,
    List.any_nil, Option.isSome_none, h.1, hb.1, Bool.or_false, Bool.false_or, Bool.not_false,
    Bool.true_and, Bool.or_eq_false_iff, true_and]
  rcases h.2 with h | h
  · exact .inl h
  · rcases hb.2 with hb | hb
    · exact .inl hb
    · exact .inr ⟨hb, h⟩

/-- Raising a condition that a name is bound to. -/
theorem ends_raising {y : Symbol} (h : List.lookup y env = some (.condition d)) (m : Machine) :
  (raising (.var y)).Ends env m (.error d) m
  := by
  apply Expr.ends_call (.cons (Expr.ends_builtin .throw) (.cons (Expr.ends_var h) .nil))
  apply Expr.callEnds_native
  exact .of_forall fun c f => rfl

/-- Bindings and then more bindings. -/
theorem Expr.BindingsEnd.append {bs cs : List (Symbol × Expr)} {env₁ : Env} {r : Ended Env}
    (h : Expr.BindingsEnd env bs m (.ok env₁) m₁) (h' : Expr.BindingsEnd env₁ cs m₁ r m₂) :
  Expr.BindingsEnd env (bs ++ cs) m r m₂
  := by
  generalize hr : (Except.ok env₁ : Ended Env) = r' at h
  induction h with
  | nil =>
    cases hr
    exact h'
  | cons h _ ih => exact .cons h (ih h' hr)
  | head => cases hr

/-- A continuation that runs a cleanup and then ends as the body and its clauses did goes on
from what it is called with. -/
theorem Closes.accepts {t t₁ t₂ t₃ : SymbolTable} {s : Scope} {env' : Env} {x : Exits}
    {p : Symbol} {e final body g : Expr} {v : Value} {r r' : Ended Value} {id : Nat}
    (hcloses : Closes own G U inner env (some e) last m r r' last₁ m₁)
    (hs : s.head.isSome = inner) (hfit : Fits U W t s env env' x) (hp : p ∉ t.names)
    (hp' : p ∈ t₁.names) (ht : t.Within t₁) (hfinal : ¬ final.Needs inner)
    (hbody : handOver Table.default (s.binding [p]) (.block [e, final]) t₁ = .ok body t₂)
    (hg : Coroutine.guarded body s.failure t₂ = .ok g t₃)
    (htake : x.Take own G W (r'.map .value) last₁ m₁)
    (hends : ∀ {W' v'}, Value.Alike W' v v' → ∃ r'', Ended.Alike W' r r'' ∧
      ∀ {env''} m, List.lookup p env'' = some v' → final.Ends env'' m r'' m) :
  (Value.closure id .none [p] g env').Accepts own G W v last m
  := by
  have ht' := ht.trans (handOver_grows Table.default _ _ _ _ _ hbody)
  have hparam : s.failure ≠ p := by
    rintro rfl
    exact hp hfit.failure.known
  apply Value.Accepts.of_guarded hg (hfit.failure.within ht') hparam htake
  intro W' v' wrap m' hW hv hlast hm
  have hfit' := (hfit.mono hW).fresh hp ht v'
  obtain ⟨r'', hr, hends⟩ := hends hv
  have hself : List.lookup p ((p, v') :: env') = some v' := lookup_cons_self p v' env'
  cases hcloses with
  | value hU hplain he =>
    apply he.before (s := s.binding [p]) hplain hU hfinal hs hfit' hm hlast (htake.mono hW) hbody hr
    · intro m
      exact hends m hself
    · intro y u m hy
      apply hends m
      rw [lookup_cons_of_ne _ u, hself]
      rintro rfl
      exact hy hp'
  | error hU hplain he =>
    exact he.before_error (s := s.binding [p]) hplain hU hs hfit' hm hlast (htake.mono hW) hbody
  | gone hgone => exact absurd hm (hgone W' m')

/-- The continuations of a landing stand in the scope inside its bindings. -/
structure Lands (U : Symbol → Prop) (W : World) (t : SymbolTable) (s : Scope) (env env' : Env)
    (x : Exits) (landing : Landing) (m' : Machine) (env'' : Env) (n : Nat) (k f : Value) :
    Prop where
  bindings : Expr.BindingsEnd env' landing.bindings m' (.ok env'')
    { m' with nextId := m'.nextId + n }
  fits : Fits U W t (s.binding (landing.bindings.map (·.1))) env env'' x
  success : Stands U t env'' landing.success k
  failure : Stands U t env'' landing.failure f

/-- The continuations that run a cleanup go on from what the body and its clauses give. -/
theorem lowerCleanup_spec {t t' : SymbolTable} {s : Scope} {cleanup : Option Expr}
    {landing : Landing} {env' : Env} {x : Exits}
    (hcode : lowerCleanup Table.default s cleanup t = .ok landing t')
    (hs : s.head.isSome = inner) (hfit : Fits U W t s env env' x) (m' : Machine) :
  ∃ env'' n k f, Lands U W t' s env env' x landing m' env'' n k f ∧
    ∀ {r r' : Ended Value} {last m last₁ m₁},
      Closes own G U inner env cleanup last m r r' last₁ m₁ →
      x.Take own G W (r'.map .value) last₁ m₁ →
      Exits.Take own G W { x with success := k, failure := f } (r.map .value) last m
  := by
  cases cleanup with
  | none =>
    rw [lowerCleanup] at hcode
    obtain ⟨rfl, rfl⟩ := Compiling.pure_eq_ok_iff.1 hcode
    refine ⟨env', 0, x.success, x.failure, ⟨.nil, hfit, hfit.success, hfit.failure⟩, ?_⟩
    intro r r' last m last₁ m₁ hcloses htake
    cases hcloses with
    | none => exact htake
    | gone hgone => exact htake
  | some e =>
    rw [lowerCleanup] at hcode
    obtain ⟨success, t₁, hk, hcode⟩ := Compiling.bind_eq_ok_iff.1 hcode
    obtain ⟨v, t₂, hv, hcode⟩ := Compiling.bind_eq_ok_iff.1 hcode
    obtain ⟨onValue, t₃, hvalue, hcode⟩ := Compiling.bind_eq_ok_iff.1 hcode
    obtain ⟨successCont, t₄, hsuccess, hcode⟩ := Compiling.bind_eq_ok_iff.1 hcode
    obtain ⟨failure, t₅, hf, hcode⟩ := Compiling.bind_eq_ok_iff.1 hcode
    obtain ⟨err, t₆, herr, hcode⟩ := Compiling.bind_eq_ok_iff.1 hcode
    obtain ⟨onError, t₇, herror, hcode⟩ := Compiling.bind_eq_ok_iff.1 hcode
    obtain ⟨failureCont, t₈, hfailure, hcode⟩ := Compiling.bind_eq_ok_iff.1 hcode
    obtain ⟨rfl, rfl⟩ := Compiling.pure_eq_ok_iff.1 hcode
    obtain ⟨hk, hk', ht₁⟩ := Compiling.fresh_spec hk
    obtain ⟨hv, hv', ht₂⟩ := Compiling.fresh_spec hv
    have ht₃ := handOver_grows Table.default _ _ _ _ _ hvalue
    have ht₄ := receiver_grows _ _ _ _ _ _ hsuccess
    obtain ⟨hf, hf', ht₅⟩ := Compiling.fresh_spec hf
    obtain ⟨herr, herr', ht₆⟩ := Compiling.fresh_spec herr
    have ht₇ := handOver_grows Table.default _ _ _ _ _ herror
    have ht₈ := receiver_grows _ _ _ _ _ _ hfailure
    obtain ⟨g, rfl, hg⟩ := receiver_spec hsuccess
    obtain ⟨g', rfl, hg'⟩ := receiver_spec hfailure
    generalize hk₁ : Value.closure m'.nextId none [v] g env' = k₁
    generalize hf₁ : Value.closure (m'.nextId + 1) none [err] g' ((success, k₁) :: env') = f₁
    -- the scope inside the binding of the first continuation, and inside that of both
    have hfit₁ := hfit.hide hk k₁
    have hfit₄ := hfit₁.within (ht₁.trans (ht₂.trans (ht₃.trans ht₄)))
    have hfit₈ := (hfit₄.hide hf f₁).within (ht₅.trans (ht₆.trans (ht₇.trans ht₈)))
    have hk₈ : success ∈ t₈.names :=
      ht₈ _ (ht₇ _ (ht₆ _ (ht₅ _ (ht₄ _ (ht₃ _ (ht₂ _ hk'))))))
    have hf₈ : failure ∈ t₈.names := ht₈ _ (ht₇ _ (ht₆ _ hf'))
    have hne : success ≠ failure := by
      rintro rfl
      exact hf (ht₄ _ (ht₃ _ (ht₂ _ hk')))
    have hself : List.lookup success ((failure, f₁) :: (success, k₁) :: env') = some k₁ := by
      rw [lookup_cons_of_ne hne, lookup_cons_self]
    refine ⟨(failure, f₁) :: (success, k₁) :: env', 2, k₁, f₁, ⟨?_, ?_, ?_, ?_⟩, ?_⟩
    · subst hf₁ hk₁
      exact .cons (Expr.ends_lambda none [v] g) (.cons (Expr.ends_lambda none [err] g') .nil)
    · have hbound : Fits U W t₈ ((s.binding [success]).binding [failure]) env
          ((failure, f₁) :: (success, k₁) :: env') x := by
        apply (hfit₈.binding _).binding
        · rw [lookup_cons_self]
          rfl
        · rw [hself]
          rfl
      exact hbound
    · exact ⟨hk₈, hfit.not_user hk, hself⟩
    · exact ⟨hf₈, hfit₄.not_user hf, lookup_cons_self failure f₁ _⟩
    · intro r r' last m last₁ m₁ hcloses htake
      cases r with
      | ok w =>
        have hcont : k₁.Accepts own G W w last m := by
          subst hk₁
          refine hcloses.accepts hs (hfit.within ht₁) hv hv' ht₂ (not_needs_of_isAtom rfl) hvalue
            hg htake ?_
          intro W' v' hv
          exact ⟨.ok v', .ok hv, fun m h => Expr.ends_var h⟩
        exact @hcont
      | error d =>
        have hcont : f₁.Accepts own G W (.condition d) last m := by
          subst hf₁
          refine hcloses.accepts hs (hfit₄.within ht₅) herr herr' ht₆
            (not_needs_call_builtin .throw (not_needs_of_isAtom rfl)) herror hg' htake ?_
          intro W' v' hv
          cases hv with
          | condition hdata => exact ⟨.error _, .error (.mk hdata), fun m h => ends_raising h m⟩
        exact @hcont

/-! ### Clauses -/

/-- What the clauses make of the end of a body. -/
inductive Catches (own : Nat) (G : Aim) (U : Symbol → Prop) (inner : Bool)
    (env : Env) (clauses : List (Clause Expr)) : Option (Context Value) → Machine →
    (r r' : Ended Value) → Option (Context Value) → Machine → Prop where
  | passed {v : Value} {last : Option (Context Value)} {m : Machine} :
    Catches own G U inner env clauses last m (.ok v) (.ok v) last m
  | caught {d : Condition Value} {clause : Clause Expr} {r : Ended Value}
    {last last₁ : Option (Context Value)} {m m₁ : Machine} (hx : U clause.var)
    (hclause : clauses.find? (·.selector.accepts (.condition d)) = some clause)
    (he : clause.body.Followed own G U inner ((clause.var, .condition d) :: env) last m
      (r.map .value) last₁ m₁) :
    Catches own G U inner env clauses last m (.error d) r last₁ m₁
  | uncaught {d : Condition Value} {last : Option (Context Value)} {m : Machine}
    (hclause : clauses.find? (·.selector.accepts (.condition d)) = none) :
    Catches own G U inner env clauses last m (.error d) (.error d) last m

/-- The clause that accepts a value has its lowered body among the lowered ones. -/
theorem lowerBodies_spec {s : Scope} {clauses selected : List (Clause Expr)}
    {t t' : SymbolTable} (hcode : lowerBodies Table.default s clauses t = .ok selected t')
    (v : Value) :
  match clauses.find? (·.selector.accepts v) with
  | some clause => ∃ code t₁ t₂, t.Within t₁ ∧
      handOver Table.default (s.binding [clause.var]) clause.body t₁ = .ok code t₂ ∧
      selected.find? (·.selector.accepts v) =
        some ⟨clause.selector, clause.var, .lambda none [] code⟩
  | none => selected.find? (·.selector.accepts v) = none
  := by
  induction clauses generalizing t selected with
  | nil =>
    rw [lowerBodies] at hcode
    obtain ⟨rfl, -⟩ := Compiling.pure_eq_ok_iff.1 hcode
    rfl
  | cons clause rest ih =>
    obtain ⟨selector, y, e⟩ := clause
    rw [lowerBodies] at hcode
    obtain ⟨code, t₁, hcode', hcode⟩ := Compiling.bind_eq_ok_iff.1 hcode
    obtain ⟨others, t₂, hothers, hcode⟩ := Compiling.bind_eq_ok_iff.1 hcode
    obtain ⟨rfl, rfl⟩ := Compiling.pure_eq_ok_iff.1 hcode
    rw [List.find?_cons, List.find?_cons]
    dsimp only
    cases selector.accepts v with
    | true => exact ⟨code, t, t₁, .refl t, hcode', rfl⟩
    | false =>
      have ih := ih hothers
      revert ih
      have ht := handOver_grows Table.default _ _ _ _ _ hcode'
      cases rest.find? (·.selector.accepts v) with
      | none => exact id
      | some clause =>
        rintro ⟨code, t₃, t₄, ht₃, hcode, hfind⟩
        exact ⟨code, t₃, t₄, ht.trans ht₃, hcode, hfind⟩

/-- The call of a function literal without parameters that a tree comes to. -/
theorem Expr.Reaches.call_thunk {select code : Expr} {env' scope : Env} {r : Ended Yield}
    {m' m'' : Machine} {wrap : Option (Context Value)} {id : Nat}
    (h : code.Reaches own G W wrap scope m'' r last₁ m₁)
    (hselect : select.Ends env' m' (.ok (.closure id none [] code scope)) m'') :
  (Expr.call select []).Reaches own G W wrap env' m' r last₁ m₁
  := by
  cases h with
  | completes h =>
    have hcall : (Value.closure id none [] code scope).Delivers G wrap [] m'' :=
      Expr.Completes.delivers rfl h
    exact .completes (hcall.call (.cons hselect .nil))
  | escapes hr hW hlast hd hm h =>
    apply Expr.Reaches.escapes hr hW hlast hd hm
    exact Expr.ends_call (.cons hselect .nil) (Expr.callEnds_closure rfl h)

/-- The scope of the lowered body of a clause, or of a protected body. -/
theorem Fits.continuingWith {t : SymbolTable} {s : Scope} {env' : Env} {x : Exits}
    {success failure : Symbol} {k f : Value} (h : Fits U W t s env env' x)
    (hk : Stands U t env' success k) (hf : Stands U t env' failure f) :
  Fits U W t (s.continuingWith success failure) env env' { x with success := k, failure := f }
  := by
  refine { h with success := hk, failure := hf, bound := ?_ }
  intro y hy
  rcases List.mem_cons.1 hy with rfl | hy
  · rw [hf.lookup]
    rfl
  · rcases List.mem_cons.1 hy with rfl | hy
    · rw [hk.lookup]
      rfl
    · exact h.bound y hy

/-- The continuation that runs the first clause that accepts a condition goes on from what
a protected body gives. -/
theorem lowerClauses_spec {t t' : SymbolTable} {s : Scope} {clauses : List (Clause Expr)}
    {last first : Landing} {env' : Env} {x : Exits} {k f : Value}
    (hcode : lowerClauses Table.default s last clauses t = .ok first t')
    (hs : s.head.isSome = inner) (hfit : Fits U W t s env env' x)
    (hk : Stands U t env' last.success k) (hf : Stands U t env' last.failure f)
    (m' : Machine) :
  ∃ env'' n f', Lands U W t' s env env' x first m' env'' n k f' ∧
    ∀ {r r' : Ended Value} {last m last₁ m₁},
      Catches own G U inner env clauses last m r r' last₁ m₁ →
      Exits.Take own G W { x with success := k, failure := f } (r'.map .value) last₁ m₁ →
      Exits.Take own G W { x with success := k, failure := f' } (r.map .value) last m
  := by
  rw [lowerClauses] at hcode
  split at hcode
  · rename_i hnil
    obtain rfl := List.isEmpty_iff.1 hnil
    obtain ⟨rfl, rfl⟩ := Compiling.pure_eq_ok_iff.1 hcode
    refine ⟨env', 0, f, ⟨.nil, hfit, hk, hf⟩, ?_⟩
    intro r r' last m last₁ m₁ hcatches htake
    cases hcatches with
    | passed => exact htake
    | caught hx hclause he => cases hclause
    | uncaught hclause => exact htake
  · obtain ⟨failure, t₁, hfailure, hcode⟩ := Compiling.bind_eq_ok_iff.1 hcode
    obtain ⟨err, t₂, herr, hcode⟩ := Compiling.bind_eq_ok_iff.1 hcode
    obtain ⟨selected, t₃, hselected, hcode⟩ := Compiling.bind_eq_ok_iff.1 hcode
    obtain ⟨cont, t₄, hcont, hcode⟩ := Compiling.bind_eq_ok_iff.1 hcode
    obtain ⟨rfl, rfl⟩ := Compiling.pure_eq_ok_iff.1 hcode
    obtain ⟨hfailure, hfailure', ht₁⟩ := Compiling.fresh_spec hfailure
    obtain ⟨herr, herr', ht₂⟩ := Compiling.fresh_spec herr
    have ht₃ := lowerBodies_grows Table.default _ _ _ _ _ hselected
    have ht₄ := receiver_grows _ _ _ _ _ _ hcont
    obtain ⟨g, rfl, hg⟩ := receiver_spec hcont
    generalize hf₁ : Value.closure m'.nextId none [err] g env' = f₁
    have hfit₄ := hfit.fresh hfailure (ht₁.trans (ht₂.trans (ht₃.trans ht₄))) f₁
    have hwithin := ht₁.trans (ht₂.trans (ht₃.trans ht₄))
    refine ⟨(failure, f₁) :: env', 1, f₁, ⟨?_, hfit₄, ?_, ?_⟩, ?_⟩
    · subst hf₁
      exact .cons (Expr.ends_lambda none [err] g) .nil
    · exact (hk.fresh hfailure f₁).within hwithin
    · exact ⟨ht₄ _ (ht₃ _ (ht₂ _ hfailure')), hfit.not_user hfailure,
        lookup_cons_self failure f₁ env'⟩
    · intro r r' last' m last₁ m₁ hcatches htake
      -- a condition gets to the continuation, which selects a clause
      have hcontinue : ∀ {d}, r = .error d → f₁.Accepts own G W (.condition d) last' m := by
        rintro d rfl
        subst hf₁
        have hf₃ : Stands U t₃ env' last.failure f :=
          hf.within (ht₁.trans (ht₂.trans ht₃))
        have hparam : last.failure ≠ err := by
          rintro rfl
          exact herr (ht₁ _ hf.known)
        apply Value.Accepts.of_guarded (x := { x with success := k, failure := f }) hg hf₃ hparam
          htake
        intro W' v' wrap m'' hW hv hlast hm
        have hraise : ∃ d', v' = .condition d' ∧ Condition.Alike W' d d' := by
          cases hv with
          | condition hdata => exact ⟨_, rfl, .mk hdata⟩
        obtain ⟨d', rfl, hd⟩ := hraise
        have hself : List.lookup err ((err, .condition d') :: env') = some (.condition d') :=
          lookup_cons_self err _ env'
        have hfind : clauses.find? (·.selector.accepts (.condition d')) =
            clauses.find? (·.selector.accepts (.condition d)) := by
          congr 1
          funext c
          exact (hv.accepts_eq c.selector).symm
        have hspec := lowerBodies_spec hselected (.condition d')
        rw [hfind] at hspec
        cases hcatches with
        | @caught d clause r last last₁ m m₁ hx hclause he =>
          rw [hclause] at hspec
          obtain ⟨code, t₅, t₆, ht₅, hcode, hfound⟩ := hspec
          have hselect := Expr.ends_protect (.caught (ends_raising hself m'') hfound
            (Expr.ends_lambda none [] code))
          apply Expr.Reaches.call_thunk _ hselect
          have herr : err ∉ t.names := fun hmem => herr (ht₁ err hmem)
          have hfit' := ((hfit.mono hW).continuingWith hk hf).hide herr (.condition d')
          have hfit' := (hfit'.within (ht₁.trans (ht₂.trans ht₅))).user hx hv
          exact he (s := (s.continuingWith _ _).binding [clause.var]) hs hfit' (hm.skip 1) hlast
            (htake.mono hW) hcode
        | uncaught hclause =>
          rw [hclause] at hspec
          apply Expr.Reaches.escapes rfl (le_refl W') hlast hd hm
          exact Expr.ends_call_error (.head (Expr.ends_protect
            (.uncaught (ends_raising hself m'') hspec)))
      cases r with
      | ok v =>
        cases hcatches with
        | passed => exact @htake
      | error d => exact @hcontinue d rfl

/-! ### Protected bodies -/

/-- A protected body is followed when the body, its clauses and its cleanup are. -/
theorem Expr.Followed.protect {body : Expr} {clauses : List (Clause Expr)}
    {cleanup : Option Expr} {r₁ r₂ r₃ : Ended Value}
    (hn : (Expr.protect body clauses cleanup).Needs inner)
    (hbody : body.Followed own G U inner env last m (r₁.map .value) last₁ m₁)
    (hcatches : Catches own G U inner env clauses last₁ m₁ r₁ r₂ last₂ m₂)
    (hcloses : Closes own G U inner env cleanup last₂ m₂ r₂ r₃ last₃ m₃) :
  (Expr.protect body clauses cleanup).Followed own G U inner env last m (r₃.map .value) last₃ m₃
  := by
  intro W m' env' wrap t t' s code x hs hfit hm hlast htake hcode
  rw [handOver_of_needs hs hn, lower] at hcode
  split at hcode
  · rename_i hnone
    rw [Bool.and_eq_true, List.isEmpty_iff, Option.isNone_iff_eq_none] at hnone
    obtain ⟨rfl, rfl⟩ := hnone
    have hsame : r₃.map Yield.value = r₁.map .value ∧ last₃ = last₁ ∧ m₃ = m₁ := by
      cases hcatches with
      | passed => cases hcloses <;> exact ⟨rfl, rfl, rfl⟩
      | caught hx hclause he => cases hclause
      | uncaught hclause => cases hcloses <;> exact ⟨rfl, rfl, rfl⟩
    obtain ⟨hr, rfl, rfl⟩ := hsame
    rw [hr] at htake ⊢
    exact hbody hs hfit hm hlast htake hcode
  · obtain ⟨landing, t₁, hlanding, hcode⟩ := Compiling.bind_eq_ok_iff.1 hcode
    obtain ⟨first, t₂, hfirst, hcode⟩ := Compiling.bind_eq_ok_iff.1 hcode
    obtain ⟨code', t₃, hcode', hcode⟩ := Compiling.bind_eq_ok_iff.1 hcode
    obtain ⟨g, t₄, hg, hcode⟩ := Compiling.bind_eq_ok_iff.1 hcode
    obtain ⟨rfl, -⟩ := Compiling.pure_eq_ok_iff.1 hcode
    obtain ⟨env₁, n₁, k, f, hlands, htake₁⟩ := lowerCleanup_spec hlanding hs hfit m'
    obtain ⟨env₂, n₂, f', hlands', htake₂⟩ := lowerClauses_spec (s := s.binding _) hfirst hs
      hlands.fits hlands.success hlands.failure { m' with nextId := m'.nextId + n₁ }
    have htake := htake₂ hcatches (htake₁ hcloses htake)
    have hfit₂ := hlands'.fits.continuingWith hlands'.success hlands'.failure
    have ht₃ := handOver_grows Table.default _ _ _ _ _ hcode'
    have hreaches := hbody (s := ((s.binding _).binding _).continuingWith _ _) hs hfit₂
      ((hm.skip n₁).skip n₂) hlast htake hcode'
    apply Expr.Reaches.completes
    apply Expr.Completes.binding _ (hlands.bindings.append hlands'.bindings)
    exact hreaches.guarded hg (hlands'.failure.within ht₃) htake.error

/-- A protected body that raises a condition is followed when the body, its clauses and its
cleanup are. -/
theorem Expr.Followed.protect_error {body : Expr} {clauses : List (Clause Expr)}
    {cleanup : Option Expr} {r₁ r₂ : Ended Value}
    (hn : (Expr.protect body clauses cleanup).Needs inner)
    (hbody : body.Followed own G U inner env last m (r₁.map .value) last₁ m₁)
    (hcatches : Catches own G U inner env clauses last₁ m₁ r₁ r₂ last₂ m₂)
    (hcloses : Closes own G U inner env cleanup last₂ m₂ r₂ (.error d) last₃ m₃) :
  (Expr.protect body clauses cleanup).Followed own G U inner env last m (.error d) last₃ m₃
  := Expr.Followed.protect hn hbody hcatches hcloses

end Skein
