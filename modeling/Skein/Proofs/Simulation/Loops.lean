import Skein.Proofs.Simulation.Bindings

/-!
# Loops

The head of a lowered loop stands for the body of the loop: called with values, it follows
the rest of a direct run that enters the body with alike values.  A re-entry computes its
values, and then comes to a thunk whose step calls the head.
-/

namespace Skein

open Coroutine

variable {own : Nat} {G : Aim} {U : Symbol → Prop} {W W' : World} {inner : Bool}
  {env : Env} {last last₁ last₂ : Option (Context Value)} {m m₁ m₂ : Machine}

/-! ### Re-entries -/

/-- Trees with fixed values have values wherever they are evaluated. -/
theorem Fixed.allEnd {t : SymbolTable} {vs : List Value} {values : List Expr}
    (h : List.Forall₂ (Fixed W t env) vs values) :
  ∃ vs', List.Forall₂ (Value.Alike W) vs vs' ∧ ∀ m, Expr.AllEnd env values m (.ok vs') m
  := by
  induction h with
  | nil => exact ⟨[], .nil, fun m => .nil⟩
  | cons h _ ih =>
    obtain ⟨v', hv, hends⟩ := h.ends
    obtain ⟨vs', hvs, hall⟩ := ih
    exact ⟨v' :: vs', .cons hv hvs, fun m => .cons (hends m) (hall m)⟩

/-- As many values as trees are kept. -/
theorem Kept.length_eq {t : SymbolTable} {env' : Env} {es : List Expr} {r : Ended (List Value)}
    (h : Kept U W t env env' es m r m₁) :
  ∀ vs, r = .ok vs → vs.length = es.length
  := by
  induction h with
  | nil =>
    rintro vs ⟨⟩
    rfl
  | @fixed e es v m m₁ r h hs ih =>
    rintro vs hvs
    cases r <;> cases hvs
    rw [List.length_cons, List.length_cons, ih _ rfl]
  | @cons e es v m m₁ m₂ r hU h hs ih =>
    rintro vs hvs
    cases r <;> cases hvs
    rw [List.length_cons, List.length_cons, ih _ rfl]
  | head hU h =>
    rintro vs ⟨⟩

/-- The trees that a re-entry keeps have fixed values once the names are bound that it
mints, and what had a fixed value before has it then. -/
structure FixedIn (U : Symbol → Prop) (t t' : SymbolTable) (s : Scope) (env env' : Env)
    (x : Exits) (W₀ : World) (values : List Expr) (W : World) (vs : List Value) (env'' : Env) :
    Prop where
  values : List.Forall₂ (Fixed W t' env'') vs values
  fits : Fits U W t' s env env'' x
  keeps : ∀ {v e}, Fixed W₀ t env' v e → Fixed W t' env'' v e

/-- Naming trees that are kept gives trees with fixed values. -/
theorem fixValues_spec {t t' : SymbolTable} {s : Scope} {env' : Env} {x : Exits}
    {trees values : List Expr} {temps : List (Symbol × Expr)} {r : Ended (List Value)}
    {m' : Machine} (hcode : fixValues s trees t = .ok (temps, values) t')
    (hfit : Fits U W t s env env' x) (hkept : Kept U W t env env' trees m r m₁)
    (hm : Machine.Alike own 0 W m m') :
  ∃ W' r' m₁', W ≤ W' ∧ Ended.Related (FixedIn U t t' s env env' x W values) W' r r' ∧
    Machine.Alike own 0 W' m₁ m₁' ∧ Expr.BindingsEnd env' temps m' r' m₁'
  := by
  induction trees generalizing t values temps env' W m m' r with
  | nil =>
    rw [fixValues] at hcode
    obtain ⟨hpair, rfl⟩ := Compiling.pure_eq_ok_iff.1 hcode
    cases hpair
    cases hkept
    exact ⟨W, .ok env', m', le_refl W, .ok ⟨.nil, hfit, id⟩, hm, .nil⟩
  | cons e es ih =>
    rw [fixValues] at hcode
    split at hcode
    · rename_i hfixed
      obtain ⟨⟨temps', values'⟩, t₁, hrest, hcode⟩ := Compiling.bind_eq_ok_iff.1 hcode
      obtain ⟨hpair, rfl⟩ := Compiling.pure_eq_ok_iff.1 hcode
      cases hpair
      -- whether it was reduced or kept, the tree has a fixed value
      have hfirst : ∃ v r₁, Fixed W t env' v e ∧ Kept U W t env env' es m r₁ m₁ ∧
          r = r₁.map (v :: ·) := by
        cases hkept with
        | fixed h hs => exact ⟨_, _, h, hs, rfl⟩
        | cons hU h hs =>
          obtain ⟨v, hv, rfl, h⟩ := Fixed.of_isFixed hfixed hfit hU h
          cases hv
          exact ⟨_, _, h, hs, rfl⟩
        | head hU h =>
          obtain ⟨v, hv, -⟩ := Fixed.of_isFixed hfixed hfit hU h
          cases hv
      obtain ⟨v, r₁, hv, hs, rfl⟩ := hfirst
      obtain ⟨W', r', m₁', hW, hr, hm₁, hends⟩ := ih hrest hfit hs hm
      obtain ⟨h⟩ | ⟨hd⟩ := hr
      · exact ⟨W', .ok _, m₁', hW, .ok ⟨.cons (h.keeps hv) h.values, h.fits, h.keeps⟩, hm₁, hends⟩
      · exact ⟨W', .error _, m₁', hW, .error hd, hm₁, hends⟩
    · obtain ⟨y, t₁, hy, hcode⟩ := Compiling.bind_eq_ok_iff.1 hcode
      obtain ⟨⟨temps', values'⟩, t₂, hrest, hcode⟩ := Compiling.bind_eq_ok_iff.1 hcode
      obtain ⟨hpair, rfl⟩ := Compiling.pure_eq_ok_iff.1 hcode
      cases hpair
      obtain ⟨hy, hy', ht⟩ := Compiling.fresh_spec hy
      -- the rest of the trees, once the name is bound to the value
      have hcons : ∀ {v v' W₁ r₁ m₂ m''}, W ≤ W₁ → Value.Alike W₁ v v' →
          e.Ends env' m' (.ok v') m'' → Machine.Alike own 0 W₁ m₂ m'' →
          Kept U W t env env' es m₂ r₁ m₁ →
          ∃ W' r' m₁', W ≤ W' ∧
            Ended.Related (FixedIn U t t₂ s env env' x W (.var y :: values')) W'
              (r₁.map (v :: ·)) r' ∧
            Machine.Alike own 0 W' m₁ m₁' ∧
            Expr.BindingsEnd env' ((y, e) :: temps') m' r' m₁' := by
        intro v v' W₁ r₁ m₂ m'' hW hv hends hm hs
        have hs := ((hs.mono hW).hide hy v').within ht
        obtain ⟨W', r', m₁', hW', hr, hm₁, hbs⟩ :=
          ih hrest (((hfit.mono hW).hide hy v').within ht) hs hm
        have hkeeps : ∀ {v e}, Fixed W t env' v e → Fixed W₁ t₁ ((y, v') :: env') v e :=
          fun h => ((h.mono hW).hide hy v').within ht
        obtain ⟨h⟩ | ⟨hd⟩ := hr
        · have hvar := h.keeps (.var hy' (lookup_cons_self y v' env') hv)
          exact ⟨W', .ok _, m₁', le_trans hW hW',
            .ok ⟨.cons hvar h.values, h.fits, fun hv => h.keeps (hkeeps hv)⟩, hm₁,
            .cons hends hbs⟩
        · exact ⟨W', .error _, m₁', le_trans hW hW', .error hd, hm₁, .cons hends hbs⟩
      cases hkept with
      | fixed h hs =>
        obtain ⟨v', hv, hends⟩ := h.ends
        exact hcons (le_refl W) hv (hends m') hm hs
      | cons hU h hs =>
        obtain ⟨W₁, _, m'', hW, ⟨hv⟩, hm, hends⟩ := h.agree hU hfit.alike hm
        exact hcons hW hv hends hm hs
      | head hU h =>
        obtain ⟨W₁, _, m'', hW, _ | ⟨hd⟩, hm, hends⟩ := h.agree hU hfit.alike hm
        exact ⟨W₁, .error _, m'', hW, .error hd, hm, .head hends⟩

/-- Making a thunk of a function literal. -/
theorem ends_thunk (body : Expr) (m : Machine) :
  (Expr.call (.builtin .thunk) [.lambda none [] body]).Ends env m
    (.ok (.thunk (m.nextId + 1) (.closure m.nextId none [] body env)))
    { m with nextId := m.nextId + 2 }
  := by
  apply Expr.ends_call (.cons (Expr.ends_builtin .thunk) (.cons (Expr.ends_lambda none [] body) .nil))
  apply Expr.callEnds_native
  exact .of_forall fun c f => rfl

namespace Expr.Followed

variable {es : List Expr} {vs : List Value} {d : Condition Value}

/-- A re-entry is followed when its trees are. -/
theorem recur (hn : (Expr.recur es).Needs inner)
    (hes : Expr.AllFollowed own G U inner es env last m (.ok vs) last₁ m₁) :
  (Expr.recur es).Followed own G U inner env last m (.ok (.again vs)) last₁ m₁
  := by
  intro W m' env' wrap t t' s code x hs hfit hm hlast htake hcode
  rw [handOver_of_needs hs hn, lower] at hcode
  cases hhead : s.head with
  | none =>
    rw [hhead] at hcode
    exact absurd hcode Compiling.throw_ne_ok
  | some head =>
    rw [hhead] at hcode
    dsimp only at hcode
    split at hcode
    · rename_i harity
      refine hes hs hfit hm hlast htake ?_ .nil (fun s' values => reentry_grows head s' values)
        ?_ hcode
      · intro d hd
        cases hd
      intro W' t t' s' trees code env' wrap m m' hW hs' hk hfit hcode hkept hm hlast
      obtain ⟨⟨temps, values⟩, t₁, htemps, hcode⟩ := Compiling.bind_eq_ok_iff.1 hcode
      obtain ⟨rfl, -⟩ := Compiling.pure_eq_ok_iff.1 hcode
      have hlength : vs.length = x.arity := by
        have hkept : vs.length = trees.length := hkept.length_eq vs rfl
        rw [← (hfit.head head (hs'.trans hhead)).2, ← harity, hkept, hk]
        exact Nat.zero_add _
      obtain ⟨W'', _, m₁', hW', ⟨hfixed⟩, hm₁, hbs⟩ := fixValues_spec htemps hfit hkept hm
      rename_i env''
      obtain ⟨vs', hvs, hall⟩ := Fixed.allEnd hfixed.values
      have hhead := (hfixed.fits.head head (hs'.trans hhead)).1.lookup
      have hdeliver : (Value.closure m₁'.nextId none [] (.call (.var head.name) values)
          env'').Delivers G wrap [] ({ m₁' with nextId := m₁'.nextId + 2 }.reenter wrap) := by
        apply Expr.Completes.delivers rfl
        apply (htake (le_trans hW hW') hlength hvs (hlast.mono hW') (hm₁.skip 2)).call
        exact .cons (Expr.ends_var hhead) (hall _)
      obtain ⟨u, m'', hcall, hrest⟩ := hdeliver
      apply Expr.Reaches.completes
      apply Expr.Completes.binding _ hbs
      exact ⟨_, _, ends_thunk _ _, .again hm₁.limit' hcall hrest⟩
    · exact absurd hcode Compiling.throw_ne_ok

/-- A re-entry whose trees raise a condition is followed. -/
theorem recur_error (hn : (Expr.recur es).Needs inner)
    (hes : Expr.AllFollowed own G U inner es env last m (.error d) last₁ m₁) :
  (Expr.recur es).Followed own G U inner env last m (.error d) last₁ m₁
  := by
  intro W m' env' wrap t t' s code x hs hfit hm hlast htake hcode
  rw [handOver_of_needs hs hn, lower] at hcode
  cases hhead : s.head with
  | none =>
    rw [hhead] at hcode
    exact absurd hcode Compiling.throw_ne_ok
  | some head =>
    rw [hhead] at hcode
    dsimp only at hcode
    split at hcode
    · refine hes hs hfit hm hlast htake ?_ .nil (fun s' values => reentry_grows head s' values)
        ?_ hcode
      · rintro c ⟨⟩
        exact ⟨rfl, rfl, rfl⟩
      intro W' t t' s' trees code env' wrap m m' hW hs' hk hfit hcode hkept hm hlast
      obtain ⟨⟨temps, values⟩, t₁, htemps, hcode⟩ := Compiling.bind_eq_ok_iff.1 hcode
      obtain ⟨rfl, -⟩ := Compiling.pure_eq_ok_iff.1 hcode
      obtain ⟨W'', _, m₁', hW', _ | ⟨hd⟩, hm₁, hbs⟩ := fixValues_spec htemps hfit hkept hm
      apply Expr.Reaches.escapes rfl hW' (hlast.mono hW') hd hm₁
      exact Expr.ends_binding_error hbs
    · exact absurd hcode Compiling.throw_ne_ok

end Expr.Followed

/-! ### Heads -/

/-- Whatever head a loop gets that stands in a scope, calling it follows the rest of a run
of the loop that gives `r`. -/
def Expr.LoopFollowed (own : Nat) (G : Aim) (U : Symbol → Prop) (scope : Env)
    (names : List Symbol) (body : Expr) (env : Env) (last : Option (Context Value)) (m : Machine)
    (r : Ended Yield) (last₁ : Option (Context Value)) (m₁ : Machine) : Prop :=
  ∀ {W m' env' wrap t t₁ t₂ t₃ s code inner x name id vs'}, Fits U W t s scope env' x →
    name ∉ t.names → name ∈ t₁.names → t.Within t₁ →
    handOver Table.default ((s.inLoop ⟨name, names.length⟩).binding names) body t₁ =
      .ok inner t₂ →
    Coroutine.guarded inner s.failure t₂ = .ok code t₃ → vs'.length = names.length →
    Env.Alike W U env
      (Env.extend ((name, .closure id (some name) names code env') :: env') names vs') →
    Machine.Alike own 0 W m m' → LastAlike W last wrap → x.Take own G W r last₁ m₁ →
    (Value.closure id (some name) names code env').Delivers G wrap vs' m'

/-- The names of the bindings that a function or a loop adds. -/
theorem map_fst_zip_reverse {names : List Symbol} {vs : List Value}
    (h : vs.length = names.length) :
  (names.zip vs).reverse.map (·.1) = names.reverse
  := by
  rw [List.map_reverse, List.map_fst_zip (Nat.le_of_eq h.symm)]

/-- The machine in which a thunk is taken is alike to one in the context of the last
suspension. -/
theorem Machine.Alike.reenter {m m' : Machine} {wrap : Option (Context Value)}
    (h : Machine.Alike own 0 W m m') (hlast : LastAlike W last wrap) :
  Machine.Alike own 0 W (m.backIn last) (m'.reenter wrap)
  := by
  cases hlast with
  | none => exact h
  | some hc => exact { h.skip 2 with context := hc }

/-- A body that stands in a loop, and what is known of the scope inside it. -/
theorem Fits.inLoop {t t₁ : SymbolTable} {s : Scope} {scope env' : Env} {x : Exits}
    {name : Symbol} {names : List Symbol} {vs' : List Value} {head : Value}
    (hfit : Fits U W t s scope env' x) (hname : name ∉ t.names) (hname' : name ∈ t₁.names)
    (ht : t.Within t₁) (hx : ∀ y ∈ names, U y) (hlength : vs'.length = names.length)
    (henv : Env.Alike W U env (Env.extend ((name, head) :: env') names vs')) :
  Fits U W t₁ ((s.inLoop ⟨name, names.length⟩).binding names) env
    (Env.extend ((name, head) :: env') names vs') { x with head, arity := names.length }
  := by
  have hbase := (hfit.hide hname head).within ht
  have hloop : Fits U W t₁ (s.inLoop ⟨name, names.length⟩) scope ((name, head) :: env')
      { x with head, arity := names.length } := by
    refine { hbase with head := ?_, bound := ?_ }
    · rintro h ⟨⟩
      exact ⟨⟨hname', hfit.not_user hname, lookup_cons_self name head env'⟩, rfl⟩
    · intro y hy
      rcases List.mem_cons.1 hy with rfl | hy
      · rw [lookup_cons_self]
        rfl
      · exact hbase.bound y hy
  apply hloop.append _ henv (map_fst_zip_reverse hlength)
  intro y hy
  rw [map_fst_zip_reverse hlength, List.mem_reverse] at hy
  exact hx y hy

namespace Expr.LoopFollowed

variable {scope : Env} {names : List Symbol} {body : Expr}

/-- The body of a loop that is not entered anew. -/
theorem done {r : Ended Value} (hx : ∀ y ∈ names, U y)
    (h : body.Followed own G U true env last m (r.map .value) last₁ m₁) :
  Expr.LoopFollowed own G U scope names body env last m (r.map .value) last₁ m₁
  := by
  intro W m' env' wrap t t₁ t₂ t₃ s code inner x name id vs' hfit hname hname' ht hinner hcode
    hlength henv hm hlast htake
  have hfit' := hfit.inLoop hname hname' ht hx hlength henv
  have ht₁ := handOver_grows Table.default _ _ _ _ _ hinner
  apply Expr.Completes.delivers hlength
  have hreaches := h (s := (s.inLoop _).binding names) rfl hfit' hm hlast
    (by cases r <;> exact htake) hinner
  exact hreaches.guarded hcode (hfit'.failure.within ht₁) htake.error

/-- The body of a loop that is entered anew. -/
theorem again {vs : List Value} {r : Ended Yield} (hx : ∀ y ∈ names, U y)
    (h : body.Followed own G U true env last m (.ok (.again vs)) last₁ m₁)
    (hr : Expr.LoopFollowed own G U scope names body (scope.extend names vs) last₁
      (m₁.backIn last₁) r last₂ m₂) :
  Expr.LoopFollowed own G U scope names body env last m r last₂ m₂
  := by
  intro W m' env' wrap t t₁ t₂ t₃ s code inner x name id vs' hfit hname hname' ht hinner hcode
    hlength henv hm hlast htake
  have hfit' := hfit.inLoop hname hname' ht hx hlength henv
  have ht₁ := handOver_grows Table.default _ _ _ _ _ hinner
  apply Expr.Completes.delivers hlength
  have hreaches := h (s := (s.inLoop _).binding names) rfl hfit' hm hlast ?_ hinner
  · apply hreaches.guarded hcode (hfit'.failure.within ht₁)
    rintro d ⟨⟩
  · intro W' vs'' wrap m' hW hlen hvs hlast hm
    have hscope := ((hfit.mono hW).hide hname (.closure id (some name) names code env')).alike
    exact hr (hfit.mono hW) hname hname' ht hinner hcode (hvs.length_eq ▸ hlen)
      (hscope.extend names hvs) (hm.reenter hlast) hlast (htake.mono hW)

end Expr.LoopFollowed

/-! ### Entering a loop -/

/-- The scope inside bindings of a direct run. -/
theorem Direct.scope_eq {manner : Manner} {bs : List (Symbol × Expr)} {env₁ : Env}
    (h : Direct manner inner (.bindings bs) env last m (.ok (.scope env₁)) last₁ m₁) :
  ∃ added : Env, env₁ = added ++ env ∧ added.map (·.1) = (bs.map (·.1)).reverse
  := by
  generalize ht : Task.bindings bs = task at h
  generalize hr : (Except.ok (Yield.scope env₁) : Ended Yield) = r at h
  induction h generalizing bs with
  | bindingsNil =>
    cases ht
    cases hr
    exact ⟨[], rfl, rfl⟩
  | @bindingsCons inner env last last₁ last' m m₁ m' x e bs v r h hs _ ih =>
    cases ht
    obtain ⟨added, rfl, hadded⟩ := ih rfl hr
    refine ⟨added ++ [(x, v)], by rw [List.append_assoc]; rfl, ?_⟩
    rw [List.map_append, hadded, List.map_cons (l := bs), List.reverse_cons]
    rfl
  | bindingsHead => cases hr
  | _ => cases ht

/-- The values of names that are bound. -/
theorem allEnd_vars {names : List Symbol}
    (h : ∀ y ∈ names, (List.lookup y env).isSome = true) (m : Machine) :
  Expr.AllEnd env (names.map .var) m
    (.ok (names.map fun y => (List.lookup y env).getD .nil)) m
  := by
  induction names with
  | nil => exact .nil
  | cons y names ih =>
    have h := List.forall_mem_cons.1 h
    refine .cons (Expr.ends_var ?_) (ih h.2)
    obtain ⟨v, hv⟩ := Option.isSome_iff_exists.1 h.1
    dsimp only
    rw [hv]
    rfl

/-- A name that is bound together with others, each to the value that `f` gives it. -/
theorem lookup_zip_map {names : List Symbol} {y : Symbol} (hy : y ∈ names)
    (f : Symbol → Value) (env : Env) :
  List.lookup y ((names.zip (names.map f)).reverse ++ env) = some (f y)
  := by
  have hall : ∀ b ∈ (names.zip (names.map f)).reverse, b.2 = f b.1 := by
    have hzip : names.zip (names.map f) = names.map fun z => (z, f z) := by
      clear hy
      induction names with
      | nil => rfl
      | cons z names ih => rw [List.map_cons, List.map_cons, List.zip_cons_cons, ih]
    intro b hb
    rw [List.mem_reverse, hzip] at hb
    obtain ⟨z, -, rfl⟩ := List.mem_map.1 hb
    rfl
  have hmem : y ∈ (names.zip (names.map f)).reverse.map (·.1) := by
    rw [map_fst_zip_reverse (List.length_map f), List.mem_reverse]
    exact hy
  revert hall hmem
  generalize (names.zip (names.map f)).reverse = added
  intro hall hmem
  induction added with
  | nil => cases hmem
  | cons b added ih =>
    obtain ⟨z, v⟩ := b
    have hall := List.forall_mem_cons.1 hall
    by_cases hz : y = z
    · subst hz
      rw [List.cons_append, lookup_cons_self]
      exact congrArg some hall.1
    · rw [List.cons_append, lookup_cons_of_ne hz]
      exact ih hall.2 ((List.mem_cons.1 hmem).resolve_left hz)

namespace Expr.Followed

variable {manner : Manner} {bs : List (Symbol × Expr)} {body : Expr} {env₁ : Env}

/-- A loop is followed when its bindings and its head are. -/
theorem loop {r : Ended Yield} (hn : (Expr.loop bs body).Needs inner) (hx : ∀ b ∈ bs, U b.1)
    (hd : Direct manner inner (.bindings bs) env last m (.ok (.scope env₁)) last₁ m₁)
    (hbs : Expr.BindingsFollowed own G U inner bs env last m (.ok env₁) last₁ m₁)
    (h : Expr.LoopFollowed own G U env (bs.map (·.1)) body env₁ last₁ m₁ r last₂ m₂) :
  (Expr.loop bs body).Followed own G U inner env last m r last₂ m₂
  := by
  intro W m' env' wrap t t' s code x hs hfit hm hlast htake hcode
  rw [handOver_of_needs hs hn, lower] at hcode
  obtain ⟨name, t₁, hname, hcode⟩ := Compiling.bind_eq_ok_iff.1 hcode
  obtain ⟨inner', t₂, hinner, hcode⟩ := Compiling.bind_eq_ok_iff.1 hcode
  obtain ⟨code', t₃, hcode', hcode⟩ := Compiling.bind_eq_ok_iff.1 hcode
  obtain ⟨start, t₄, hstart, hcode⟩ := Compiling.bind_eq_ok_iff.1 hcode
  obtain ⟨rfl, -⟩ := Compiling.pure_eq_ok_iff.1 hcode
  obtain ⟨hname, hname', ht⟩ := Compiling.fresh_spec hname
  have ht₁ := handOver_grows Table.default _ _ _ _ _ hinner
  have ht₂ := guarded_grows _ _ _ _ _ hcode'
  obtain ⟨added, rfl, hadded⟩ := hd.scope_eq
  generalize hnames : bs.map (·.1) = names at *
  have hxs : ∀ y ∈ names, U y := by
    intro y hy
    rw [← hnames] at hy
    obtain ⟨b, hb, rfl⟩ := List.mem_map.1 hy
    exact hx b hb
  have hfit₃ := (hfit.fresh hname ht
    (.closure m'.nextId (some name) names code' env')).within (ht₁.trans ht₂)
  have hz : Stands U t₃ ((name, .closure m'.nextId (some name) names code' env') :: env') name
      (.closure m'.nextId (some name) names code' env') :=
    ⟨ht₂ name (ht₁ name hname'), hfit.not_user hname, lookup_cons_self name _ env'⟩
  apply Expr.Reaches.binding _ (.cons (Expr.ends_lambda (some name) names code') .nil)
  refine hbs (s := s.binding [name]) hs hfit₃ hz ?_ ?_ .nil (hm.skip 1) hlast htake ?_ ?_ hstart
  · intro b hb
    cases hb
  · intro b hb
    cases hb
  · intro d hd
    cases hd
  · rintro _ ⟨⟩ W' t t' s' code env'' wrap m'' hW hs' hfit' hz' hcode hm hlast
    obtain ⟨rfl, -⟩ := Compiling.pure_eq_ok_iff.1 hcode
    have hbound : ∀ y ∈ names, (List.lookup y env'').isSome = true := by
      intro y hy
      have hsome : (List.lookup y (added ++ env)).isSome = true := by
        apply isSome_lookup_append
        rw [hadded, List.mem_reverse]
        exact .inl hy
      have hrel := hfit'.alike y (hxs y hy)
      revert hsome hrel
      generalize List.lookup y (added ++ env) = o, List.lookup y env'' = o'
      rintro hsome (_ | _)
      · rfl
      · exact hsome
    have henv : Env.Alike W' U (added ++ env) (Env.extend
        ((name, .closure m'.nextId (some name) names code' env') :: env') names
        (names.map fun y => (List.lookup y env'').getD .nil)) := by
      intro y hy
      rw [Env.extend]
      by_cases hmem : y ∈ names
      · rw [lookup_zip_map hmem]
        obtain ⟨v', hv'⟩ := Option.isSome_iff_exists.1 (hbound y hmem)
        have hrel := hfit'.alike y hy
        rw [hv'] at hrel ⊢
        exact hrel
      · rw [lookup_append_of_not_mem (by rw [hadded, List.mem_reverse]; exact hmem),
          lookup_append_of_not_mem]
        · exact ((hfit.mono hW).hide hname _).alike y hy
        · rw [map_fst_zip_reverse (List.length_map _), List.mem_reverse]
          exact hmem
    apply Expr.Reaches.completes
    apply (h (hfit.mono hW) hname hname' ht hinner hcode' (List.length_map _) henv hm hlast
      (htake.mono hW)).call
    exact .cons (Expr.ends_var hz'.lookup) (allEnd_vars hbound m'')

/-- A loop whose bindings raise a condition is followed. -/
theorem loop_error {d : Condition Value} (hn : (Expr.loop bs body).Needs inner)
    (hbs : Expr.BindingsFollowed own G U inner bs env last m (.error d) last₁ m₁) :
  (Expr.loop bs body).Followed own G U inner env last m (.error d) last₁ m₁
  := by
  intro W m' env' wrap t t' s code x hs hfit hm hlast htake hcode
  rw [handOver_of_needs hs hn, lower] at hcode
  obtain ⟨name, t₁, hname, hcode⟩ := Compiling.bind_eq_ok_iff.1 hcode
  obtain ⟨inner', t₂, hinner, hcode⟩ := Compiling.bind_eq_ok_iff.1 hcode
  obtain ⟨code', t₃, hcode', hcode⟩ := Compiling.bind_eq_ok_iff.1 hcode
  obtain ⟨start, t₄, hstart, hcode⟩ := Compiling.bind_eq_ok_iff.1 hcode
  obtain ⟨rfl, -⟩ := Compiling.pure_eq_ok_iff.1 hcode
  obtain ⟨hname, hname', ht⟩ := Compiling.fresh_spec hname
  have ht₁ := handOver_grows Table.default _ _ _ _ _ hinner
  have ht₂ := guarded_grows _ _ _ _ _ hcode'
  have hfit₃ := (hfit.fresh hname ht (.closure m'.nextId (some name) (bs.map (·.1)) code'
    env')).within (ht₁.trans ht₂)
  apply Expr.Reaches.binding _ (.cons (Expr.ends_lambda (some name) (bs.map (·.1)) code') .nil)
  refine hbs (s := s.binding [name]) hs hfit₃ hfit₃.success ?_ ?_ .nil (hm.skip 1) hlast htake
    ?_ ?_ hstart
  · intro b hb
    cases hb
  · intro b hb
    cases hb
  · rintro c ⟨⟩
    exact ⟨rfl, rfl, rfl⟩
  · rintro env₁ ⟨⟩

end Expr.Followed

end Skein
