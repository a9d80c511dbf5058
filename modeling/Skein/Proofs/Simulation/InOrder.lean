import Skein.Proofs.Simulation.Kept

/-!
# Trees in turn

The code that evaluates trees from left to right and then does something with their values
follows direct runs when the code of each tree does, and what is done in the end does.
-/

namespace Skein

open Coroutine

variable {own : Nat} {G : Aim} {U : Symbol → Prop} {W W' : World}
  {manner : Manner} {inner : Bool}

/-- Whatever code a tree is handed over by, it follows a run of the tree that gives `r`. -/
def Expr.Followed (own : Nat) (G : Aim) (U : Symbol → Prop) (inner : Bool)
    (e : Expr) (env : Env) (last : Option (Context Value)) (m : Machine) (r : Ended Yield)
    (last₁ : Option (Context Value)) (m₁ : Machine) : Prop :=
  ∀ {W m' env' wrap t t' s code x}, s.head.isSome = inner → Fits U W t s env env' x →
    Machine.Alike own 0 W m m' → LastAlike W last wrap → x.Take own G W r last₁ m₁ →
    handOver Table.default s e t = .ok code t' → code.Reaches own G W wrap env' m' r last₁ m₁

/-- What is done with the values of `k` trees follows a run that gives `r'`, where the trees
that are kept give `r`. -/
def Finishes (own : Nat) (G : Aim) (U : Symbol → Prop) (W : World) (x : Exits)
    (head : Option Head) (k : Nat) (env : Env) (finish : Scope → List Expr → Compiling Expr)
    (r : Ended (List Value)) (last₁ : Option (Context Value)) (m₁ : Machine) (r' : Ended Yield)
    (last₂ : Option (Context Value)) (m₂ : Machine) : Prop :=
  ∀ {W' t t' s trees code env' wrap m m'}, W ≤ W' → s.head = head → trees.length = k →
    Fits U W' t s env env' x → finish s trees t = .ok code t' → Kept U W' t env env' trees m r m₁ →
    Machine.Alike own 0 W' m m' → LastAlike W' last₁ wrap →
    code.Reaches own G W' wrap env' m' r' last₂ m₂

/-- What is done with values goes on when more is known. -/
theorem Finishes.mono (hW : W ≤ W') {x : Exits} {head : Option Head} {k : Nat} {env : Env}
    {finish : Scope → List Expr → Compiling Expr} {r : Ended (List Value)}
    {last₁ last₂ : Option (Context Value)} {m₁ m₂ : Machine} {r' : Ended Yield}
    (h : Finishes own G U W x head k env finish r last₁ m₁ r' last₂ m₂) :
  Finishes own G U W' x head k env finish r last₁ m₁ r' last₂ m₂
  := fun hW' => h (le_trans hW hW')

/-- Whatever code some trees are evaluated by before something is done with their values,
it follows a run in which the trees give `r`. -/
def Expr.AllFollowed (own : Nat) (G : Aim) (U : Symbol → Prop) (inner : Bool)
    (es : List Expr) (env : Env) (last : Option (Context Value)) (m : Machine)
    (r : Ended (List Value)) (last₁ : Option (Context Value)) (m₁ : Machine) : Prop :=
  ∀ {W m' env' wrap t t' s code x values vs finish r' last₂ m₂}, s.head.isSome = inner →
    Fits U W t s env env' x → Machine.Alike own 0 W m m' → LastAlike W last wrap →
    x.Take own G W r' last₂ m₂ →
    (∀ d, r = .error d → r' = .error d ∧ last₂ = last₁ ∧ m₂ = m₁) →
    List.Forall₂ (Fixed W t env') vs values →
    (∀ s values, Compiling.Grows (finish s values)) →
    Finishes own G U W x s.head (values.length + es.length) env finish (r.map (vs ++ ·)) last₁ m₁
      r' last₂ m₂ →
    inOrder Table.default s values es finish t = .ok code t' →
    code.Reaches own G W wrap env' m' r' last₂ m₂

variable {env : Env} {last last₁ last₂ : Option (Context Value)} {m m₁ m₂ : Machine}

/-- Handing a value over follows a run that gives it. -/
theorem Expr.Reaches.send {e : Expr} {k : Symbol} {x : Exits} {wrap : Option (Context Value)}
    {env' : Env} {m' m₁' : Machine} {r r' : Ended Value}
    (htake : x.Take own G W (r.map .value) last₁ m₁) (hk : List.lookup k env' = some x.success)
    (hW : W ≤ W') (hr : Ended.Alike W' r r') (hm : Machine.Alike own 0 W' m₁ m₁')
    (hlast : LastAlike W' last₁ wrap) (hends : e.Ends env' m' r' m₁') :
  (Expr.send k e).Reaches own G W wrap env' m' (r.map .value) last₁ m₁
  := by
  obtain hv | hd := hr
  · apply Expr.Reaches.completes
    exact (htake hW hv hlast hm).send hk hends
  · apply Expr.Reaches.escapes rfl hW hlast hd hm
    exact Expr.ends_call_error (.tail (Expr.ends_var hk) (.head hends))

/-- A tree that need not be lowered is followed. -/
theorem Expr.Followed.plain {e : Expr} {r : Ended Value} (hn : ¬ e.Needs inner)
    (hU : ∀ y, e.Mentions y → U y) (h : e.Ends env m r m₁) :
  e.Followed own G U inner env last m (r.map .value) last m₁
  := by
  intro W m' env' wrap t t' s code x hs hfit hm hlast htake hcode
  rw [handOver_of_not_needs hs hn] at hcode
  obtain ⟨rfl, -⟩ := Compiling.pure_eq_ok_iff.1 hcode
  obtain ⟨W', r', m₁', hW, hr, hm₁, hends⟩ := h.agree hU hfit.alike hm
  exact .send htake hfit.success.lookup hW hr hm₁ (hlast.mono hW) hends

/-- A continuation that is bound to a name around code. -/
theorem bindings_receiver {k param : Symbol} {code : Expr} {env' : Env} (m : Machine) :
  Expr.BindingsEnd env' [(k, .lambda none [param] code)] m
    (.ok ((k, .closure m.nextId none [param] code env') :: env'))
    { m with nextId := m.nextId + 1 }
  := .cons (Expr.ends_lambda none [param] code) .nil

/-- Code that follows a run that gives a value completes. -/
theorem Expr.Reaches.completes_of_ok {code : Expr} {wrap : Option (Context Value)} {y : Yield}
    (h : code.Reaches own G W wrap env m (.ok y) last₁ m₁) :
  code.Completes G wrap env m
  := by
  cases h with
  | completes h => exact h
  | escapes hr => cases hr

section delivering

variable {e : Expr} {m' : Machine} {env' : Env} {wrap : Option (Context Value)}
  {t t₁ t₂ t₃ : SymbolTable} {s : Scope} {param k : Symbol} {cont body code : Expr} {x : Exits}

/-- A tree that suspends gets a continuation of its own, which does the rest. -/
theorem Expr.Followed.delivering {v : Value} {r : Ended Yield}
    (he : e.Followed own G U inner env last m (.ok (.value v)) last₁ m₁)
    (hn : e.Needs inner) (hs : s.head.isSome = inner) (hfit : Fits U W t s env env' x)
    (hm : Machine.Alike own 0 W m m') (hlast : LastAlike W last wrap)
    (htake : x.Take own G W r last₂ m₂) (ht : t.Within t₁) (hk : k ∉ t.names)
    (hk' : k ∈ t₁.names) (hcont : receiver param body s.failure t₁ = .ok cont t₂)
    (hcode : lower Table.default (s.delivering k) e t₂ = .ok code t₃)
    (hparam : s.failure ≠ param)
    (hbody : ∀ {W' v' wrap m'}, W ≤ W' → Value.Alike W' v v' → LastAlike W' last₁ wrap →
      Machine.Alike own 0 W' m₁ m' →
      body.Reaches own G W' wrap ((param, v') :: env') m' r last₂ m₂) :
  (Expr.binding [(k, cont)] code).Completes G wrap env' m'
  := by
  obtain ⟨g, rfl, hg⟩ := receiver_spec hcont
  have ht₁ := receiver_grows _ _ _ _ _ _ hcont
  have hfit₂ := hfit.delivering hk (ht₁ k hk') (ht.trans ht₁)
    (.closure m'.nextId none [param] g env')
  rw [← handOver_of_needs (s := s.delivering k) hs hn] at hcode
  have hreaches := he (s := s.delivering k) hs hfit₂ (hm.skip 1) hlast ?_ hcode
  · exact hreaches.completes_of_ok.binding (bindings_receiver m')
  · exact Value.Accepts.of_guarded hg (hfit.failure.within ht) hparam htake hbody

/-- A tree that suspends and raises a condition gets a continuation of its own, which is
not called. -/
theorem Expr.Followed.delivering_error {d : Condition Value}
    (he : e.Followed own G U inner env last m (.error d) last₁ m₁)
    (hn : e.Needs inner) (hs : s.head.isSome = inner) (hfit : Fits U W t s env env' x)
    (hm : Machine.Alike own 0 W m m') (hlast : LastAlike W last wrap)
    (htake : x.Take own G W (.error d) last₁ m₁) (ht : t.Within t₁) (hk : k ∉ t.names)
    (hk' : k ∈ t₁.names) (hcont : receiver param body s.failure t₁ = .ok cont t₂)
    (hcode : lower Table.default (s.delivering k) e t₂ = .ok code t₃) :
  (Expr.binding [(k, cont)] code).Reaches own G W wrap env' m' (.error d) last₁ m₁
  := by
  obtain ⟨g, rfl, hg⟩ := receiver_spec hcont
  have ht₁ := receiver_grows _ _ _ _ _ _ hcont
  have hfit₂ := hfit.delivering hk (ht₁ k hk') (ht.trans ht₁)
    (.closure m'.nextId none [param] g env')
  rw [← handOver_of_needs (s := s.delivering k) hs hn] at hcode
  have hreaches := he (s := s.delivering k) hs hfit₂ (hm.skip 1) hlast htake hcode
  exact hreaches.binding (bindings_receiver m')

end delivering

/-! ### The cases of trees in turn -/

section inOrder

variable {e : Expr} {es : List Expr} {r : Ended (List Value)}

/-- No trees are followed. -/
theorem Expr.AllFollowed.nil :
  Expr.AllFollowed own G U inner [] env last m (.ok []) last m
  := by
  intro W m' env' wrap t t' s code x values vs finish r' last₂ m₂ hs hfit hm hlast _ _ hvalues
    _ hfinish hcode
  rw [inOrder] at hcode
  apply hfinish (le_refl W) rfl rfl hfit hcode _ hm hlast
  have hkept := Kept.append hvalues (.nil : Kept U W t env env' [] m (.ok []) m)
  rwa [List.append_nil] at hkept

/-- Some tree of a list has to be lowered. -/
theorem not_any_needsLowering {s : Scope} (hs : s.head.isSome = inner)
    (hn : ∃ e ∈ es, e.Needs inner) :
  ¬ (!es.any (needsLowering Table.default s)) = true
  := by
  obtain ⟨e, hmem, he⟩ := hn
  rw [Bool.not_eq_true', List.any_eq_false]
  intro hall
  exact hall e hmem ((needsLowering_iff hs e).2 he)

/-- Trees of which none need be lowered are followed. -/
theorem Expr.AllFollowed.plain (hne : es ≠ []) (hn : ∀ e ∈ es, ¬ e.Needs inner)
    (hU : ∀ e ∈ es, ∀ y, e.Mentions y → U y) (h : Expr.AllEnd env es m r m₁) :
  Expr.AllFollowed own G U inner es env last m r last m₁
  := by
  intro W m' env' wrap t t' s code x values vs finish r' last₂ m₂ hs hfit hm hlast _ _ hvalues
    _ hfinish hcode
  obtain ⟨e, rest, rfl⟩ := List.exists_cons_of_ne_nil hne
  have hany : (!(e :: rest).any (needsLowering Table.default s)) = true := by
    rw [Bool.not_eq_true', List.any_eq_false]
    intro e he
    exact mt (needsLowering_iff hs e).1 (hn e he)
  rw [inOrder, if_pos hany] at hcode
  apply hfinish (le_refl W) rfl List.length_append hfit hcode _ hm hlast
  exact Kept.append hvalues (.of_allEnd h hU)

/-- The results of trees whose first one has a value. -/
theorem map_append_cons (r : Ended (List Value)) (vs : List Value) (v : Value) :
  (r.map (v :: ·)).map (vs ++ ·) = r.map ((vs ++ [v]) ++ ·)
  := by
  cases r with
  | ok ws =>
    change Except.ok (vs ++ v :: ws) = Except.ok (vs ++ [v] ++ ws)
    rw [List.append_assoc]
    rfl
  | error d => rfl

/-- Values that are fixed, and one more that a minted name is bound to. -/
theorem Fixed.concat {t t' : SymbolTable} {p : Symbol} {env' : Env} {vs : List Value}
    {values : List Expr} {v v' : Value} (h : List.Forall₂ (Fixed W t env') vs values)
    (hW : W ≤ W') (ht : t.Within t') (hp : p ∉ t.names) (hp' : p ∈ t'.names)
    (hv : Value.Alike W' v v') :
  List.Forall₂ (Fixed W' t' ((p, v') :: env')) (vs ++ [v]) (values ++ [.var p])
  := by
  apply List.rel_append
  · exact h.imp fun _ _ hv => ((hv.mono hW).hide hp v').within ht
  · exact .cons (.var hp' (lookup_cons_self p v' env') hv) .nil

/-- A tree that has a value and more trees after it are followed. -/
theorem Expr.AllFollowed.cons {v : Value} (hU : ¬ e.Needs inner → ∀ y, e.Mentions y → U y)
    (he : e.Followed own G U inner env last m (.ok (.value v)) last₁ m₁)
    (hplain : ¬ e.Needs inner → last₁ = last ∧ e.Ends env m (.ok v) m₁)
    (hes : Expr.AllFollowed own G U inner es env last₁ m₁ r last₂ m₂)
    (hn : ∃ d ∈ e :: es, d.Needs inner) :
  Expr.AllFollowed own G U inner (e :: es) env last m (r.map (v :: ·)) last₂ m₂
  := by
  intro W m' env' wrap t t' s code x values vs finish r' last₃ m₃ hs hfit hm hlast htake herror
    hvalues hgrows hfinish hcode
  have herror' : ∀ d, r = .error d → r' = .error d ∧ last₃ = last₂ ∧ m₃ = m₂ := by
    rintro d rfl
    exact herror d rfl
  rw [map_append_cons, List.length_cons] at hfinish
  have hlength : ∀ e', (values ++ [e']).length + es.length = values.length + (es.length + 1) := by
    intro e'
    rw [List.length_append, List.length_singleton]
    omega
  rw [inOrder, if_neg (not_any_needsLowering hs hn)] at hcode
  -- the rest of the trees, once a minted name is bound to the value
  have hrest : ∀ {p t₁ t₂ body}, p ∉ t.names → p ∈ t₁.names → t.Within t₁ →
      inOrder Table.default (s.binding [p]) (values ++ [.var p]) es finish t₁ = .ok body t₂ →
      ∀ {W' v' wrap m'}, W ≤ W' → Value.Alike W' v v' → LastAlike W' last₁ wrap →
        Machine.Alike own 0 W' m₁ m' →
        body.Reaches own G W' wrap ((p, v') :: env') m' r' last₃ m₃ := by
    intro p t₁ t₂ body hp hp' ht hbody W' v' wrap m' hW hv hlast hm
    exact hes (s := s.binding [p]) hs
      ((hfit.mono hW).fresh hp ht v') hm hlast (htake.mono hW)
      herror' (Fixed.concat hvalues hW ht hp hp' hv) hgrows
      (by rw [hlength]; exact hfinish.mono hW) hbody
  split at hcode
  · rename_i hneeds
    obtain ⟨p, t₁, hp, hcode⟩ := Compiling.bind_eq_ok_iff.1 hcode
    obtain ⟨body, t₂, hbody, hcode⟩ := Compiling.bind_eq_ok_iff.1 hcode
    obtain ⟨k, t₃, hk, hcode⟩ := Compiling.bind_eq_ok_iff.1 hcode
    obtain ⟨cont, t₄, hcont, hcode⟩ := Compiling.bind_eq_ok_iff.1 hcode
    obtain ⟨code', t₅, hcode', hcode⟩ := Compiling.bind_eq_ok_iff.1 hcode
    obtain ⟨rfl, -⟩ := Compiling.pure_eq_ok_iff.1 hcode
    obtain ⟨hp, hp', ht₁⟩ := Compiling.fresh_spec hp
    have ht₂ := inOrder_grows Table.default _ _ es finish hgrows t₁ body t₂ hbody
    apply Expr.Reaches.completes
    obtain ⟨hk, hk', ht₃⟩ := Compiling.fresh_spec hk
    have ht₂ := ht₁.trans ht₂
    refine he.delivering ((needsLowering_iff hs e).1 hneeds) hs hfit hm hlast htake
      (ht₂.trans ht₃) (fun hmem => hk (ht₂ k hmem)) hk' hcont hcode' ?_ (hrest hp hp' ht₁ hbody)
    rintro rfl
    exact hp hfit.failure.known
  · rename_i hneeds
    obtain ⟨rfl, hends⟩ := hplain (mt (needsLowering_iff hs e).2 hneeds)
    have hU := hU (mt (needsLowering_iff hs e).2 hneeds)
    split at hcode
    · rename_i hfixed
      obtain ⟨w, hw, rfl, hfixed⟩ := Fixed.of_isFixed hfixed hfit hU hends
      cases hw
      have hvalues : List.Forall₂ (Fixed W t env') (vs ++ [v]) (values ++ [e]) :=
        List.rel_append hvalues (.cons hfixed .nil)
      exact hes hs hfit hm hlast htake herror' hvalues hgrows (by rw [hlength]; exact hfinish) hcode
    · obtain ⟨p, t₁, hp, hcode⟩ := Compiling.bind_eq_ok_iff.1 hcode
      obtain ⟨body, t₂, hbody, hcode⟩ := Compiling.bind_eq_ok_iff.1 hcode
      obtain ⟨rfl, -⟩ := Compiling.pure_eq_ok_iff.1 hcode
      obtain ⟨hp, hp', ht₁⟩ := Compiling.fresh_spec hp
      obtain ⟨W', _, m₁', hW, ⟨hv⟩, hm₁, hends⟩ := hends.agree hU hfit.alike hm
      have hreaches := hrest hp hp' ht₁ hbody hW hv (hlast.mono hW) hm₁
      exact (hreaches.mono hW).binding (.cons hends .nil)

/-- A tree that raises a condition and more trees after it are followed. -/
theorem Expr.AllFollowed.head {d : Condition Value}
    (hU : ¬ e.Needs inner → ∀ y, e.Mentions y → U y)
    (he : e.Followed own G U inner env last m (.error d) last₁ m₁)
    (hplain : ¬ e.Needs inner → last₁ = last ∧ e.Ends env m (.error d) m₁)
    (hn : ∃ d ∈ e :: es, d.Needs inner) :
  Expr.AllFollowed own G U inner (e :: es) env last m (.error d) last₁ m₁
  := by
  intro W m' env' wrap t t' s code x values vs finish r' last₃ m₃ hs hfit hm hlast htake herror
    hvalues hgrows hfinish hcode
  obtain ⟨rfl, rfl, rfl⟩ := herror d rfl
  rw [inOrder, if_neg (not_any_needsLowering hs hn)] at hcode
  split at hcode
  · rename_i hneeds
    obtain ⟨p, t₁, hp, hcode⟩ := Compiling.bind_eq_ok_iff.1 hcode
    obtain ⟨body, t₂, hbody, hcode⟩ := Compiling.bind_eq_ok_iff.1 hcode
    obtain ⟨k, t₃, hk, hcode⟩ := Compiling.bind_eq_ok_iff.1 hcode
    obtain ⟨cont, t₄, hcont, hcode⟩ := Compiling.bind_eq_ok_iff.1 hcode
    obtain ⟨code', t₅, hcode', hcode⟩ := Compiling.bind_eq_ok_iff.1 hcode
    obtain ⟨rfl, -⟩ := Compiling.pure_eq_ok_iff.1 hcode
    obtain ⟨hp, hp', ht₁⟩ := Compiling.fresh_spec hp
    have ht₂ := inOrder_grows Table.default _ _ es finish hgrows t₁ body t₂ hbody
    obtain ⟨hk, hk', ht₃⟩ := Compiling.fresh_spec hk
    have ht₂ := ht₁.trans ht₂
    exact he.delivering_error ((needsLowering_iff hs e).1 hneeds) hs hfit hm hlast htake
      (ht₂.trans ht₃) (fun hmem => hk (ht₂ k hmem)) hk' hcont hcode'
  · rename_i hneeds
    obtain ⟨rfl, hends⟩ := hplain (mt (needsLowering_iff hs e).2 hneeds)
    have hU := hU (mt (needsLowering_iff hs e).2 hneeds)
    split at hcode
    · rename_i hfixed
      obtain ⟨w, hw, -⟩ := Fixed.of_isFixed hfixed hfit hU hends
      cases hw
    · obtain ⟨p, t₁, hp, hcode⟩ := Compiling.bind_eq_ok_iff.1 hcode
      obtain ⟨body, t₂, hbody, hcode⟩ := Compiling.bind_eq_ok_iff.1 hcode
      obtain ⟨rfl, -⟩ := Compiling.pure_eq_ok_iff.1 hcode
      obtain ⟨W', _, m₁', hW, _ | ⟨hd⟩, hm₁, hends⟩ := hends.agree hU hfit.alike hm
      exact .escapes rfl hW (hlast.mono hW) hd hm₁ (Expr.ends_binding_error (.head hends))

/-! ### From direct runs -/

variable {y : Ended Yield}

/-- A direct run of a tree that gives a value and direct runs of more trees. -/
theorem Expr.AllFollowed.of_direct {v : Value}
    (hU : ∀ d ∈ e :: es, ¬ d.Needs inner → ∀ z, d.Mentions z → U z)
    (hd : Direct manner inner (.tree e) env last m (.ok (.value v)) last₁ m₁)
    (hds : Direct manner inner (.trees es) env last₁ m₁ (r.map .values) last₂ m₂)
    (he : e.Followed own G U inner env last m (.ok (.value v)) last₁ m₁)
    (hes : Expr.AllFollowed own G U inner es env last₁ m₁ r last₂ m₂) :
  Expr.AllFollowed own G U inner (e :: es) env last m (r.map (v :: ·)) last₂ m₂
  := by
  by_cases hn : ∃ d ∈ e :: es, d.Needs inner
  · exact Expr.AllFollowed.cons (hU e List.mem_cons_self) he hd.ends_of_not_needs hes hn
  · have hn : ∀ d ∈ e :: es, ¬ d.Needs inner := fun d hd hneeds => hn ⟨d, hd, hneeds⟩
    have hplain := List.forall_mem_cons.1 hn
    obtain ⟨rfl, hends⟩ := hd.ends_of_not_needs hplain.1
    obtain ⟨rfl, r', hr, hall⟩ := hds.allEnd hplain.2
    apply Expr.AllFollowed.plain (List.cons_ne_nil e es) hn fun d hd => hU d hd (hn d hd)
    cases r <;> cases r' <;> cases hr
    · exact .tail hends hall
    · exact .cons hends hall

/-- A direct run of a tree that raises a condition, whatever trees come after it. -/
theorem Expr.AllFollowed.of_direct_error {d : Condition Value}
    (hU : ∀ d ∈ e :: es, ¬ d.Needs inner → ∀ z, d.Mentions z → U z)
    (hd : Direct manner inner (.tree e) env last m (.error d) last₁ m₁)
    (he : e.Followed own G U inner env last m (.error d) last₁ m₁) :
  Expr.AllFollowed own G U inner (e :: es) env last m (.error d) last₁ m₁
  := by
  by_cases hn : ∃ d ∈ e :: es, d.Needs inner
  · exact Expr.AllFollowed.head (hU e List.mem_cons_self) he hd.raises_of_not_needs hn
  · have hn : ∀ d ∈ e :: es, ¬ d.Needs inner := fun d hd hneeds => hn ⟨d, hd, hneeds⟩
    obtain ⟨rfl, hends⟩ := hd.raises_of_not_needs (hn e List.mem_cons_self)
    apply Expr.AllFollowed.plain (List.cons_ne_nil e es) hn fun d hd => hU d hd (hn d hd)
    exact .head hends

/-! ### What is done with the values -/

variable {x : Exits} {head : Option Head} {k : Nat} {finish : Scope → List Expr → Compiling Expr}

/-- What is done with the values of trees, where the trees that are kept give values. -/
theorem Finishes.of_ok {vs : List Value}
    (h : ∀ {W' t t' s trees code env' wrap m' m₁' vs'}, W ≤ W' → s.head = head →
      trees.length = k → Fits U W' t s env env' x → finish s trees t = .ok code t' →
      Expr.AllEnd env' trees m' (.ok vs') m₁' → List.Forall₂ (Value.Alike W') vs vs' →
      Machine.Alike own 0 W' m₁ m₁' → LastAlike W' last₁ wrap →
      code.Reaches own G W' wrap env' m' y last₂ m₂) :
  Finishes own G U W x head k env finish (.ok vs) last₁ m₁ y last₂ m₂
  := by
  intro W' t t' s trees code env' wrap m m' hW hs hk hfit hcode hkept hm hlast
  obtain ⟨W'', r', m₁', hW', ⟨hvs⟩, hm₁, hall⟩ := hkept.allEnd (le_refl W') hfit.alike hm
  apply Expr.Reaches.mono hW'
  exact h (le_trans hW hW') hs hk (hfit.mono hW') hcode hall hvs hm₁ (hlast.mono hW')

/-- What is done with the values of trees, where one of the trees that are kept raises a
condition. -/
theorem Finishes.of_error {d : Condition Value}
    (h : ∀ {t t' s trees code env' m' m₁' d'}, trees.length = k →
      finish s trees t = .ok code t' → Expr.AllEnd env' trees m' (.error d') m₁' → code.Ends env' m' (.error d') m₁') :
  Finishes own G U W x head k env finish (.error d) last₁ m₁ (.error d) last₁ m₁
  := by
  intro W' t t' s trees code env' wrap m m' hW hs hk hfit hcode hkept hm hlast
  obtain ⟨W'', r', m₁', hW', _ | ⟨hd⟩, hm₁, hall⟩ := hkept.allEnd (le_refl W') hfit.alike hm
  exact .escapes rfl hW' (hlast.mono hW') hd hm₁ (h hk hcode hall)

end inOrder

end Skein
