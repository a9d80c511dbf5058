import Skein.Proofs.Simulation.InOrder

/-!
# Bindings

The code of bindings follows direct runs when the code of the initial values and of what
the bindings end in does.  The bindings before one whose initial value suspends stand where
they stood; what comes after it is done by its continuation, whose parameter is the name
that is bound.
-/

namespace Skein

open Coroutine

variable {own : Nat} {G : Aim} {U : Symbol → Prop} {W W' : World}
  {inner : Bool} {env : Env} {last last₁ last₂ : Option (Context Value)}
  {m m₁ m₂ : Machine}

/-! ### Scopes inside bindings -/

/-- Bindings of other names do not hide a name. -/
theorem lookup_append_of_not_mem {y : Symbol} {added : Env} (h : y ∉ added.map (·.1))
    (env : Env) :
  List.lookup y (added ++ env) = List.lookup y env
  := by
  induction added with
  | nil => rfl
  | cons b added ih =>
    rw [List.map_cons, List.mem_cons, not_or] at h
    rw [List.cons_append, ← ih h.2]
    exact lookup_cons_of_ne h.1 b.2 _

/-- A name is bound inside more bindings. -/
theorem isSome_lookup_append {y : Symbol} {added : Env}
    (h : y ∈ added.map (·.1) ∨ (List.lookup y env).isSome = true) :
  (List.lookup y (added ++ env)).isSome = true
  := by
  induction added with
  | nil => exact h.resolve_left List.not_mem_nil
  | cons b added ih =>
    obtain ⟨z, v⟩ := b
    rw [List.map_cons, List.mem_cons, or_assoc] at h
    rcases h with rfl | h
    · rw [List.cons_append, lookup_cons_self]
      rfl
    · exact isSome_lookup_cons v (ih h)

/-- A name stands for its value inside bindings of names of the body. -/
theorem Stands.append {t : SymbolTable} {z : Symbol} {v : Value} {added : Env}
    (h : Stands U t env z v) (hadded : ∀ y ∈ added.map (·.1), U y) :
  Stands U t (added ++ env) z v
  := by
  refine ⟨h.known, h.minted, ?_⟩
  rw [lookup_append_of_not_mem, h.lookup]
  intro hmem
  exact h.minted (hadded z hmem)

/-- Scopes fit inside bindings of names of the body. -/
theorem Fits.append {t : SymbolTable} {s : Scope} {env' env₁ added : Env} {x : Exits}
    (h : Fits U W t s env env' x) (hadded : ∀ y ∈ added.map (·.1), U y)
    (halike : Env.Alike W U env₁ (added ++ env')) {names : List Symbol}
    (hnames : added.map (·.1) = names.reverse) :
  Fits U W t (s.binding names) env₁ (added ++ env') x
  where
  known := h.known
  alike := halike
  success := h.success.append hadded
  failure := h.failure.append hadded
  head z hz := ⟨(h.head z hz).1.append hadded, (h.head z hz).2⟩
  bound y hy := by
    apply isSome_lookup_append
    rw [hnames]
    rcases List.mem_append.1 hy with hy | hy
    · exact .inl hy
    · exact .inr (h.bound y hy)

/-- Bindings that give a scope, and one more. -/
theorem Expr.BindingsEnd.concat {bs : List (Symbol × Expr)} {env₁ : Env} {y : Symbol} {e : Expr}
    {v : Value} (h : Expr.BindingsEnd env bs m (.ok env₁) m₁) (he : e.Ends env₁ m₁ (.ok v) m₂) :
  Expr.BindingsEnd env (bs ++ [(y, e)]) m (.ok ((y, v) :: env₁)) m₂
  := by
  generalize hr : (Except.ok env₁ : Ended Env) = r at h
  induction h with
  | nil =>
    cases hr
    exact .cons he .nil
  | cons h _ ih => exact .cons h (ih he hr)
  | head => cases hr

/-- Bindings that give a scope, and one more that raises a condition. -/
theorem Expr.BindingsEnd.concat_error {bs : List (Symbol × Expr)} {env₁ : Env} {y : Symbol}
    {e : Expr} {d : Condition Value} (h : Expr.BindingsEnd env bs m (.ok env₁) m₁)
    (he : e.Ends env₁ m₁ (.error d) m₂) :
  Expr.BindingsEnd env (bs ++ [(y, e)]) m (.error d) m₂
  := by
  generalize hr : (Except.ok env₁ : Ended Env) = r at h
  induction h with
  | nil =>
    cases hr
    exact .head he
  | cons h _ ih => exact .cons h (ih he hr)
  | head => cases hr

/-- Bindings of which one raises a condition, whatever comes after them. -/
theorem Expr.BindingsEnd.append_error {bs : List (Symbol × Expr)} {d : Condition Value}
    (h : Expr.BindingsEnd env bs m (.error d) m₁) (cs : List (Symbol × Expr)) :
  Expr.BindingsEnd env (bs ++ cs) m (.error d) m₁
  := by
  generalize hr : (Except.error d : Ended Env) = r at h
  induction h with
  | nil => cases hr
  | cons h _ ih => exact .cons h (ih hr)
  | head h =>
    cases hr
    exact .head h

/-! ### The code of bindings -/

/-- The code of what bindings end in. -/
def Coroutine.Tail.lower (s : Scope) : Tail → Compiling Expr
  | value body => handOver Table.default s body
  | code c => return c

/-- What bindings end in comes after those that need no lowering. -/
theorem lowerBindings_nil (s : Scope) (before : List (Symbol × Expr)) (tail : Tail) :
  lowerBindings Table.default s before [] tail =
    (do return .binding before (← tail.lower s))
  := by
  cases tail with
  | value body => rw [lowerBindings, Tail.lower]
  | code code => rw [lowerBindings, Tail.lower, pure_bind]

/-- The code of bindings raises what a binding before them raises. -/
theorem ends_lowerBindings_error {s : Scope} {before bs : List (Symbol × Expr)} {tail : Tail}
    {t t' : SymbolTable} {code : Expr} {d : Condition Value}
    (hcode : lowerBindings Table.default s before bs tail t = .ok code t')
    (h : Expr.BindingsEnd env before m (.error d) m₁) :
  code.Ends env m (.error d) m₁
  := by
  induction bs generalizing s before with
  | nil =>
    rw [lowerBindings_nil] at hcode
    obtain ⟨code', t₁, _, hcode⟩ := Compiling.bind_eq_ok_iff.1 hcode
    obtain ⟨rfl, -⟩ := Compiling.pure_eq_ok_iff.1 hcode
    exact Expr.ends_binding_error h
  | cons b bs ih =>
    obtain ⟨y, e⟩ := b
    rw [lowerBindings] at hcode
    split at hcode
    · obtain ⟨after, t₁, _, hcode⟩ := Compiling.bind_eq_ok_iff.1 hcode
      obtain ⟨k, t₂, _, hcode⟩ := Compiling.bind_eq_ok_iff.1 hcode
      obtain ⟨cont, t₃, _, hcode⟩ := Compiling.bind_eq_ok_iff.1 hcode
      obtain ⟨code', t₄, _, hcode⟩ := Compiling.bind_eq_ok_iff.1 hcode
      obtain ⟨rfl, -⟩ := Compiling.pure_eq_ok_iff.1 hcode
      exact Expr.ends_binding_error h
    · exact ih hcode (h.append_error [(y, e)])

/-- What bindings end in follows a run that gives `r`, inside the bindings.  There a minted
name `z` still stands for `g`. -/
def Coroutine.Tail.Followed (own : Nat) (G : Aim) (U : Symbol → Prop) (W : World)
    (x : Exits) (head : Option Head) (z : Symbol) (g : Value) (tail : Tail) (env : Env)
    (last₁ : Option (Context Value)) (m₁ : Machine) (r : Ended Yield)
    (last₂ : Option (Context Value)) (m₂ : Machine) : Prop :=
  ∀ {W' t t' s code env' wrap m'}, W ≤ W' → s.head = head → Fits U W' t s env env' x →
    Stands U t env' z g → tail.lower s t = .ok code t' → Machine.Alike own 0 W' m₁ m' →
    LastAlike W' last₁ wrap → code.Reaches own G W' wrap env' m' r last₂ m₂

/-- Whatever code bindings get after some others, it follows a run of both that gives
`r`, when what they end in does. -/
def Expr.BindingsFollowed (own : Nat) (G : Aim) (U : Symbol → Prop)
    (inner : Bool) (bs : List (Symbol × Expr)) (env : Env) (last : Option (Context Value))
    (m : Machine) (r : Ended Env) (last₁ : Option (Context Value)) (m₁ : Machine) : Prop :=
  ∀ {W m₀ m' env₀ env' wrap t t' s code x before tail z g r' last₂ m₂},
    s.head.isSome = inner → Fits U W t s env₀ env' x → Stands U t env' z g →
    (∀ b ∈ before, U b.1) → (∀ b ∈ before, ∀ y, b.2.Mentions y → U y) →
    Expr.BindingsEnd env₀ before m₀ (.ok env) m → Machine.Alike own 0 W m₀ m' →
    LastAlike W last wrap → x.Take own G W r' last₂ m₂ →
    (∀ d, r = .error d → r' = .error d ∧ last₂ = last₁ ∧ m₂ = m₁) →
    (∀ env₁, r = .ok env₁ →
      tail.Followed own G U W x s.head z g env₁ last₁ m₁ r' last₂ m₂) →
    lowerBindings Table.default (s.binding (before.map (·.1))) before bs tail t =
      .ok code t' →
    code.Reaches own G W wrap env' m' r' last₂ m₂

namespace Expr.BindingsFollowed

variable {y : Symbol} {e : Expr} {bs : List (Symbol × Expr)} {r : Ended Env}

/-- The bindings before give alike scopes that fit. -/
theorem before_agree {t : SymbolTable} {s : Scope} {env₀ env' : Env} {x : Exits}
    {before : List (Symbol × Expr)} {m₀ m' : Machine} {z : Symbol} {g : Value}
    (hfit : Fits U W t s env₀ env' x) (hz : Stands U t env' z g)
    (hnames : ∀ b ∈ before, U b.1) (hbefore : ∀ b ∈ before, ∀ y, b.2.Mentions y → U y)
    (h : Expr.BindingsEnd env₀ before m₀ (.ok env) m) (hm : Machine.Alike own 0 W m₀ m') :
  ∃ W' env'' m'', W ≤ W' ∧ Expr.BindingsEnd env' before m' (.ok env'') m'' ∧
    Machine.Alike own 0 W' m m'' ∧
    Fits U W' t (s.binding (before.map (·.1))) env env'' x ∧ Stands U t env'' z g
  := by
  obtain ⟨W', _, m'', hW, ⟨henv⟩, hm', hbs⟩ := h.agree hbefore hfit.alike hm
  obtain ⟨added, rfl, hadded⟩ := hbs.eq_append
  have hU : ∀ y ∈ added.map (·.1), U y := by
    intro y hy
    rw [hadded, List.mem_reverse] at hy
    obtain ⟨b, hb, rfl⟩ := List.mem_map.1 hy
    exact hnames b hb
  exact ⟨W', _, m'', hW, hbs, hm', (hfit.mono hW).append hU henv hadded, hz.append hU⟩

/-- No bindings are followed. -/
theorem nil :
  Expr.BindingsFollowed own G U inner [] env last m (.ok env) last m
  := by
  intro W m₀ m' env₀ env' wrap t t' s code x before tail z g r' last₂ m₂ hs hfit hz hnames
    hbefore hbs hm hlast htake _ htail hcode
  obtain ⟨W', env'', m'', hW, hbs', hm', hfit', hz'⟩ :=
    before_agree hfit hz hnames hbefore hbs hm
  rw [lowerBindings_nil] at hcode
  obtain ⟨code', t₁, hcode', hcode⟩ := Compiling.bind_eq_ok_iff.1 hcode
  obtain ⟨rfl, -⟩ := Compiling.pure_eq_ok_iff.1 hcode
  apply Expr.Reaches.binding _ hbs'
  apply Expr.Reaches.mono hW
  exact htail env rfl (s := s.binding _) hW rfl hfit' hz' hcode' hm' (hlast.mono hW)

/-- Bindings are followed when the first initial value and the bindings after it are. -/
theorem cons {v : Value} (hy : U y) (hU : ¬ e.Needs inner → ∀ y, e.Mentions y → U y)
    (hplain : ¬ e.Needs inner → last₁ = last ∧ e.Ends env m (.ok v) m₁)
    (he : e.Followed own G U inner env last m (.ok (.value v)) last₁ m₁)
    (hbs : Expr.BindingsFollowed own G U inner bs ((y, v) :: env) last₁ m₁ r last₂ m₂) :
  Expr.BindingsFollowed own G U inner ((y, e) :: bs) env last m r last₂ m₂
  := by
  intro W m₀ m' env₀ env' wrap t t' s code x before tail z g r' last₃ m₃ hs hfit hz hnames
    hbefore hbs₀ hm hlast htake herror htail hcode
  rw [lowerBindings] at hcode
  split at hcode
  · rename_i hn
    have hn := (needsLowering_iff (s := s.binding _) hs e).1 hn
    obtain ⟨after, t₁, hafter, hcode⟩ := Compiling.bind_eq_ok_iff.1 hcode
    obtain ⟨k, t₂, hk, hcode⟩ := Compiling.bind_eq_ok_iff.1 hcode
    obtain ⟨cont, t₃, hcont, hcode⟩ := Compiling.bind_eq_ok_iff.1 hcode
    obtain ⟨code', t₄, hcode', hcode⟩ := Compiling.bind_eq_ok_iff.1 hcode
    obtain ⟨rfl, -⟩ := Compiling.pure_eq_ok_iff.1 hcode
    obtain ⟨hk, hk', ht₂⟩ := Compiling.fresh_spec hk
    have ht₁ := lowerBindings_grows Table.default _ _ _ _ _ _ _ hafter
    obtain ⟨W', env'', m'', hW, hbs', hm', hfit', hz'⟩ :=
      before_agree hfit hz hnames hbefore hbs₀ hm
    apply Expr.Reaches.binding _ hbs'
    apply Expr.Reaches.completes
    refine he.delivering (s := s.binding _) hn hs hfit' hm' (hlast.mono hW) (htake.mono hW) (ht₁.trans ht₂)
      (fun hmem => hk (ht₁ k hmem)) hk' hcont hcode' ?_ ?_
    · rintro rfl
      exact hfit.failure.minted hy
    · intro W₁ v' wrap m' hW₁ hv hlast hm
      have hW₁' := le_trans hW hW₁
      have hafter : lowerBindings Table.default
          (((s.binding (before.map (·.1))).binding [y]).binding
            (([] : List (Symbol × Expr)).map (·.1))) [] bs tail t = .ok after t₁ := hafter
      refine hbs (s := (s.binding (before.map (·.1))).binding [y]) hs
        ((hfit'.mono hW₁).user hy hv) (hz'.user hy v') ?_ ?_ .nil hm hlast (htake.mono hW₁')
        herror ?_ hafter
      · intro b hb
        cases hb
      · intro b hb
        cases hb
      · intro env₁ hr W₂ t t' s code env' wrap m' hW₂
        exact htail env₁ hr (le_trans hW₁' hW₂)
  · rename_i hn
    have hn : ¬ e.Needs inner := mt (needsLowering_iff (s := s.binding _) hs e).2 hn
    obtain ⟨rfl, hends⟩ := hplain hn
    have hmap : before.map (·.1) ++ [y] = (before ++ [(y, e)]).map (·.1) := by
      rw [List.map_append]
      rfl
    rw [← Coroutine.Scope.binding_append, hmap] at hcode
    refine hbs hs hfit hz ?_ ?_ (hbs₀.concat hends) hm hlast htake herror htail hcode
    · intro b hb
      rcases List.mem_append.1 hb with hb | hb
      · exact hnames b hb
      · obtain rfl := List.mem_singleton.1 hb
        exact hy
    · intro b hb
      rcases List.mem_append.1 hb with hb | hb
      · exact hbefore b hb
      · obtain rfl := List.mem_singleton.1 hb
        exact hU hn

/-- Bindings whose first initial value raises a condition are followed. -/
theorem head {d : Condition Value} (hU : ¬ e.Needs inner → ∀ y, e.Mentions y → U y)
    (hplain : ¬ e.Needs inner → last₁ = last ∧ e.Ends env m (.error d) m₁)
    (he : e.Followed own G U inner env last m (.error d) last₁ m₁) :
  Expr.BindingsFollowed own G U inner ((y, e) :: bs) env last m (.error d) last₁ m₁
  := by
  intro W m₀ m' env₀ env' wrap t t' s code x before tail z g r' last₃ m₃ hs hfit hz hnames
    hbefore hbs₀ hm hlast htake herror htail hcode
  obtain ⟨rfl, rfl, rfl⟩ := herror d rfl
  obtain ⟨W', env'', m'', hW, hbs', hm', hfit', hz'⟩ :=
    before_agree hfit hz hnames hbefore hbs₀ hm
  rw [lowerBindings] at hcode
  split at hcode
  · rename_i hn
    have hn := (needsLowering_iff (s := s.binding _) hs e).1 hn
    obtain ⟨after, t₁, hafter, hcode⟩ := Compiling.bind_eq_ok_iff.1 hcode
    obtain ⟨k, t₂, hk, hcode⟩ := Compiling.bind_eq_ok_iff.1 hcode
    obtain ⟨cont, t₃, hcont, hcode⟩ := Compiling.bind_eq_ok_iff.1 hcode
    obtain ⟨code', t₄, hcode', hcode⟩ := Compiling.bind_eq_ok_iff.1 hcode
    obtain ⟨rfl, -⟩ := Compiling.pure_eq_ok_iff.1 hcode
    obtain ⟨hk, hk', ht₂⟩ := Compiling.fresh_spec hk
    have ht₁ := lowerBindings_grows Table.default _ _ _ _ _ _ _ hafter
    apply Expr.Reaches.binding _ hbs'
    apply Expr.Reaches.mono hW
    exact he.delivering_error (s := s.binding _) hn hs hfit' hm' (hlast.mono hW) (htake.mono hW) (ht₁.trans ht₂)
      (fun hmem => hk (ht₁ k hmem)) hk' hcont hcode'
  · rename_i hn
    have hn : ¬ e.Needs inner := mt (needsLowering_iff (s := s.binding _) hs e).2 hn
    obtain ⟨rfl, hends⟩ := hplain hn
    obtain ⟨W'', _, m₁', hW', _ | ⟨hd⟩, hm₁, hends'⟩ := hends.agree (hU hn) hfit'.alike hm'
    have hW' := le_trans hW hW'
    apply Expr.Reaches.escapes rfl hW' (hlast.mono hW') hd hm₁
    exact ends_lowerBindings_error hcode (hbs'.concat_error hends')

end Expr.BindingsFollowed

namespace Expr.Followed

variable {bs : List (Symbol × Expr)} {body : Expr} {env₁ : Env} {r : Ended Yield}

/-- Bindings around a body are followed when the bindings and the body are. -/
theorem bind (hn : (Expr.bind bs body).Needs inner)
    (hbs : Expr.BindingsFollowed own G U inner bs env last m (.ok env₁) last₁ m₁)
    (h : body.Followed own G U inner env₁ last₁ m₁ r last₂ m₂) :
  (Expr.bind bs body).Followed own G U inner env last m r last₂ m₂
  := by
  intro W m' env' wrap t t' s code x hs hfit hm hlast htake hcode
  rw [handOver_of_needs hs hn, lower] at hcode
  refine hbs hs hfit hfit.success ?_ ?_ .nil hm hlast htake ?_ ?_ hcode
  · intro b hb
    cases hb
  · intro b hb
    cases hb
  · intro d hd
    cases hd
  · rintro _ ⟨⟩ W' t t' s' code env' wrap m' hW hs' hfit _ hcode hm hlast
    exact h (by rw [hs', hs]) hfit hm hlast (htake.mono hW) hcode

/-- Bindings around a body that raise a condition are followed. -/
theorem bind_error {d : Condition Value} (hn : (Expr.bind bs body).Needs inner)
    (hbs : Expr.BindingsFollowed own G U inner bs env last m (.error d) last₁ m₁) :
  (Expr.bind bs body).Followed own G U inner env last m (.error d) last₁ m₁
  := by
  intro W m' env' wrap t t' s code x hs hfit hm hlast htake hcode
  rw [handOver_of_needs hs hn, lower] at hcode
  refine hbs hs hfit hfit.success ?_ ?_ .nil hm hlast htake ?_ ?_ hcode
  · intro b hb
    cases hb
  · intro b hb
    cases hb
  · rintro c ⟨⟩
    exact ⟨rfl, rfl, rfl⟩
  · rintro env₁ ⟨⟩

end Expr.Followed

end Skein
