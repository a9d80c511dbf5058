import Skein.Proofs.Meaning
import Skein.Proofs.Paused

/-!
# Coroutines that are called

A coroutine can be called with two continuations without being started.  The call, with the
steps of the thunks that it returns, evaluates the body up to the first awaited call or to the
end: it comes to the call of the operation, or to that of a continuation.  A condition that is
raised before anything has been suspended leaves the call, or it is handed to the second
continuation; one that is raised later is always handed to it.
-/

namespace Skein

open Coroutine Trampoline

variable {own : Nat} {G : Aim} {W : World} {wrap : Option (Context Value)} {v f g : Value}
  {vs args : List Value} {m m₁ m' : Machine}

/-! ### What a call comes to -/

/-- A call, with the steps of what it gives, comes to a later call: it gives whatever that one
gives, when this is a value that takes no step. -/
def Value.HandsOver (f : Value) (vs : List Value) (m : Machine) (g : Value) (args : List Value)
    (m' : Machine) : Prop :=
  ∀ w m₂, w.isThunk = false → g.CallEnds args m' (.ok w) m₂ →
    ∃ u m₁, f.CallEnds vs m (.ok u) m₁ ∧ u.Forces m₁ w m₂

/-- A call returns, and the run that goes on from there comes to a later call: it ends with
whatever that one gives, when this is a value that takes no step. -/
def Value.LeadsTo (f : Value) (vs : List Value) (m : Machine) (g : Value) (args : List Value)
    (m' : Machine) : Prop :=
  ∀ w m₂, w.isThunk = false → g.CallEnds args m' (.ok w) m₂ →
    f.Delivers (fun _ v m => v = w ∧ m = m₂) none vs m

/-- Of some calls, one decides what comes of a run, when the run ends in whatever way each of
them can end in. -/
theorem exists_deciding_call {A : Value → List Value → Machine → Prop}
    {C : Value → Machine → Prop}
    (h : ∀ G : Value → Machine → Prop,
      (∀ g args m', A g args m' →
        ∃ w m₂, w.isThunk = false ∧ g.CallEnds args m' (.ok w) m₂ ∧ G w m₂) →
      ∃ w m₂, G w m₂ ∧ C w m₂) :
  ∃ g args m', A g args m' ∧
    ∀ w m₂, w.isThunk = false → g.CallEnds args m' (.ok w) m₂ → C w m₂
  := by
  by_contra hnone
  obtain ⟨w, m₂, hG, hC⟩ := h (fun w m₂ => ¬ C w m₂) fun g args m' hA => by
    by_contra hall
    refine hnone ⟨g, args, m', hA, fun w m₂ hw hcall => ?_⟩
    by_contra hC
    exact hall ⟨w, m₂, hw, hcall, hC⟩
  exact hG hC

/-- A run has one end. -/
theorem Rest.ends (h : Rest G wrap v m) :
  ∃ c w m', G c w m' ∧ Rest (fun _ v m => v = w ∧ m = m') wrap v m
  := by
  induction h with
  | again hlimit h hr ih =>
    obtain ⟨c, w, m', hG, hrest⟩ := ih
    exact ⟨c, w, m', hG, .again hlimit h hrest⟩
  | resumed hlimit hv hl hp h hr ih =>
    obtain ⟨c, w, m', hG, hrest⟩ := ih
    exact ⟨c, w, m', hG, .resumed hlimit hv hl hp h hrest⟩
  | late hv hl hp ht h hr ih =>
    obtain ⟨c, w, m', hG, hrest⟩ := ih
    exact ⟨c, w, m', hG, .late hv hl hp ht h hrest⟩
  | @settled wrap v m hv hG => exact ⟨wrap, v, m, hG, .settled hv ⟨rfl, rfl⟩⟩

/-- A run that ends in a step that is not wrapped takes only the steps of the value that it
goes on from. -/
theorem Rest.forces (h : Rest G wrap v m) (hG : ∀ {c w m'}, G c w m' → c = none) :
  wrap = none ∧ ∃ w m', G none w m' ∧ v.Forces m w m'
  := by
  induction h with
  | again hlimit h hr ih =>
    obtain ⟨rfl, w, m', hw, hforces⟩ := ih
    exact ⟨rfl, w, m', hw, .thunk hlimit h hforces⟩
  | resumed hlimit hv hl hp h hr ih =>
    obtain ⟨hc, -⟩ := ih
    cases hc
  | late hv hl hp ht h hr ih =>
    obtain ⟨hc, -⟩ := ih
    cases hc
  | @settled wrap v m hv hw =>
    obtain rfl := hG hw
    exact ⟨rfl, v, m, hw, .value hv m⟩

/-- A run that ends in whatever way some calls can end in comes to one of them. -/
theorem Value.exists_leadsTo {A : Value → List Value → Machine → Prop}
    (h : ∀ G : Aim, (∀ g args m', A g args m' → ∀ wrap, g.Delivers G wrap args m') →
      f.Delivers G none vs m) :
  ∃ g args m', A g args m' ∧ f.LeadsTo vs m g args m'
  := by
  apply exists_deciding_call
  intro G hG
  obtain ⟨u, m₁, hcall, hrest⟩ := h (fun _ => G) fun g args m' hA wrap => by
    obtain ⟨w, m₂, hw, hcall, hg⟩ := hG g args m' hA
    exact ⟨w, m₂, hcall, .settled hw hg⟩
  obtain ⟨-, w, m₂, hg, hrest⟩ := hrest.ends
  exact ⟨w, m₂, hg, u, m₁, hcall, hrest⟩

/-- A run without suspension that ends in whatever way some calls can end in comes to one of
them. -/
theorem Value.exists_handsOver {A : Value → List Value → Machine → Prop}
    (h : ∀ G : Aim, (∀ g args m', A g args m' → g.Delivers G none args m') →
      f.Delivers G none vs m) :
  ∃ g args m', A g args m' ∧ f.HandsOver vs m g args m'
  := by
  apply exists_deciding_call
  intro G hG
  obtain ⟨u, m₁, hcall, hrest⟩ := h (fun c w m => c = none ∧ G w m) fun g args m' hA => by
    obtain ⟨w, m₂, hw, hcall, hg⟩ := hG g args m' hA
    exact ⟨w, m₂, hcall, .settled hw ⟨rfl, hg⟩⟩
  obtain ⟨-, w, m₂, ⟨-, hg⟩, hforces⟩ := hrest.forces fun hw => hw.1
  exact ⟨w, m₂, hg, u, m₁, hcall, hforces⟩

/-! ### The code of a body -/

section calling

variable {t t' : SymbolTable} {body code : Expr} {params : List Symbol} {env : Env}
  {last : Option (Context Value)} {r : Ended Yield} {k : Value}

/-- The continuations that a coroutine is called with. -/
def Exits.ofContinuations (k f : Value) : Exits where
  success := k
  failure := f
  head := .nil
  arity := 0

/-- Calling a coroutine follows a run of its body. -/
theorem Expr.Followed.called {U : Symbol → Prop} {env' : Env}
    (h : body.Followed own G U false env none m r last m₁) (hknown : ∀ y, U y → y ∈ t.names)
    (henv : Env.Alike W U env env') (hm : Machine.Alike own 0 W m m)
    (hcompile : Coroutine.compile Table.default body t = .ok (.lambda none params code) t')
    (htake : (Exits.ofContinuations k f).Take own G W r last m₁) (id : Nat) :
  (Value.closure id none params code env').Delivers G none [k, f] m ∨
  ∃ W' d d' m', r = .error d ∧ last = none ∧ Machine.Alike own 0 W' m₁ m' ∧
    Condition.Alike W' d d' ∧
    (Value.closure id none params code env').CallEnds [k, f] m (.error d') m'
  := by
  obtain ⟨success, failure, t₁, t₂, code, hlambda, hk, hf, hcode⟩ := compile_spec hcompile
  cases hlambda
  have hfit := fits_ofContinuations (x := .ofContinuations k f) hknown henv hk hf
  have hreaches := h (s := .ofContinuations success failure) rfl hfit hm .none htake hcode
  cases hreaches with
  | completes h => exact .inl (h.delivers rfl)
  | escapes hr hW hlast hd hm hends =>
    cases hlast
    exact .inr ⟨_, _, _, _, hr, rfl, hm, hd, Expr.callEnds_closure rfl hends⟩

/-- A continuation is called with what a run gives. -/
theorem Exits.Take.ofContinuations {r : Ended Value}
    (h : ∀ {W wrap m'} (r' : Ended Value), Machine.Alike own 0 W m₁ m' → Ended.Alike W r r' →
      LastAlike W last wrap → (r.callback k f).Delivers G wrap [r'.payload] m') :
  (Exits.ofContinuations k f).Take own G W (r.map .value) last m₁
  := by
  cases r with
  | ok v =>
    intro W' v' wrap m' hW hv hlast hm
    exact h (.ok v') hm (.ok hv) hlast
  | error d =>
    intro W' v' wrap m' hW hv hlast hm
    cases hv with | @condition kind message data data' hdata
    exact h (.error ⟨kind, message, data'⟩) hm (.error (.mk hdata)) hlast

/-- A call of a coroutine comes to the first awaited call of its body. -/
theorem Pauses.called {op : Value} (h : Pauses false (.tree body) env m op args m₁)
    (hm : Machine.Alike own 0 W m m) (hbody : body.InBody t.User false)
    (henv : Env.Alike W t.User env env)
    (hcompile : Coroutine.compile Table.default body t = .ok (.lambda none params code) t')
    (id : Nat) (k f : Value) :
  ∃ W' op' args' m' success failure, Machine.Alike own 0 W' m₁ m' ∧ Value.Alike W' op op' ∧
    List.Forall₂ (Value.Alike W') args args' ∧
    (Value.closure id none params code env).HandsOver [k, f] m op'
      (args' ++ m'.continuations success failure) m'.suspending
  := by
  have hasked : ∃ g vs m₂, (∃ W' args' m' success failure, Machine.Alike own 0 W' m₁ m' ∧
        Value.Alike W' op g ∧ List.Forall₂ (Value.Alike W') args args' ∧
        vs = args' ++ m'.continuations success failure ∧ m₂ = m'.suspending) ∧
      (Value.closure id none params code env).HandsOver [k, f] m g vs m₂ := by
    apply Value.exists_handsOver
    intro G hG
    have hop : op.Operates own G args m₁ := by
      intro W' m' op' args' success failure hm hop hargs
      exact hG _ _ _ ⟨W', args', m', success, failure, hm, hop, hargs, rfl, rfl⟩
    -- any condition will do, as no code gets to see it
    let d : Condition Value := ⟨.error, "", .nil⟩
    have hfollowed : body.Followed own G t.User false env none m (.error d) none .gone :=
      h.followed ⟨false, hbody⟩ hop
    have htake : (Exits.ofContinuations k f).Take own G W (.error d) none .gone := by
      intro W' v' wrap m' hW hv hlast hm
      exact absurd hm Machine.not_alike_gone
    obtain hdelivers | ⟨_, _, _, _, -, -, hm, -⟩ :=
      hfollowed.called (fun _ hy => hy.1) henv hm hcompile htake id
    · exact hdelivers
    · exact absurd hm Machine.not_alike_gone
  obtain ⟨op', _, _, ⟨W', args', m', success, failure, hm, hop, hargs, rfl, rfl⟩, hhands⟩ := hasked
  exact ⟨W', op', args', m', success, failure, hm, hop, hargs, hhands⟩

/-- A call of a coroutine whose body does not suspend comes to the call of a continuation, or the
condition that the body raises leaves it. -/
theorem Direct.called {r : Ended Value}
    (h : Direct .evaluated false (.tree body) env none m (r.map .value) none m₁)
    (hm : Machine.Alike own 0 W m m) (hbody : body.InBody t.User false)
    (henv : Env.Alike W t.User env env)
    (hcompile : Coroutine.compile Table.default body t = .ok (.lambda none params code) t')
    (id : Nat) (k f : Value) :
  ∃ W' m' r', Machine.Alike own 0 W' m₁ m' ∧ Ended.Alike W' r r' ∧
    ((Value.closure id none params code env).HandsOver [k, f] m (r.callback k f)
        [Ended.payload r'] m' ∨
      ∃ d, r' = .error d ∧ (Value.closure id none params code env).CallEnds [k, f] m r' m')
  := by
  by_cases hraises : ∃ W' m' d, Machine.Alike own 0 W' m₁ m' ∧ Ended.Alike W' r (.error d) ∧
      (Value.closure id none params code env).CallEnds [k, f] m (.error d) m'
  · obtain ⟨W', m', d, hm, hr, hcall⟩ := hraises
    exact ⟨W', m', .error d, hm, hr, .inr ⟨d, rfl, hcall⟩⟩
  · have hcalled : ∃ g vs m', (∃ W' r', Machine.Alike own 0 W' m₁ m' ∧ Ended.Alike W' r r' ∧
          g = r.callback k f ∧ vs = [Ended.payload r']) ∧
        (Value.closure id none params code env).HandsOver [k, f] m g vs m' := by
      apply Value.exists_handsOver
      intro G hG
      have hfollowed : body.Followed own G t.User false env none m (r.map .value) none m₁ :=
        h.followed ⟨false, hbody⟩ .evaluated
      have htake : (Exits.ofContinuations k f).Take own G W (r.map .value) none m₁ := by
        apply Exits.Take.ofContinuations
        intro W' wrap m' r' hm hr hlast
        cases hlast
        exact hG _ _ _ ⟨W', r', hm, hr, rfl, rfl⟩
      obtain hdelivers | ⟨W', d, d', m', hr, -, hm, hd, hends⟩ :=
        hfollowed.called (fun _ hy => hy.1) henv hm hcompile htake id
      · exact hdelivers
      · cases r with
        | ok v => cases hr
        | error c =>
          cases hr
          exact absurd ⟨W', m', d', hm, .error hd, hends⟩ hraises
    obtain ⟨_, _, m', ⟨W', r', hm, hr, rfl, rfl⟩, hhands⟩ := hcalled
    exact ⟨W', m', r', hm, hr, .inl hhands⟩

/-- A call of a coroutine whose body suspends and ends returns, and what goes on from there comes
to the call of a continuation. -/
theorem Direct.called_late {r : Ended Value} {c : Context Value} (i : Nat)
    (h : Direct .lowered false (.tree body) (env.answering i) none m (r.map .value) (some c) m₁)
    (hidle : m.Idle) (hm : Machine.Alike own 0 W m m) (hbody : body.InBody t.User false)
    (henv : Env.Alike W t.User env env)
    (hcompile : Coroutine.compile Table.default body t = .ok (.lambda none params code) t')
    (id : Nat) (k f : Value) :
  ∃ W' m' r', Machine.Alike own 0 W' m₁ m' ∧ Ended.Alike W' r r' ∧
    (Value.closure id none params code env).LeadsTo [k, f] m (r.callback k f)
      [Ended.payload r'] m'
  := by
  have hcalled : ∃ g vs m', (∃ W' r', Machine.Alike own 0 W' m₁ m' ∧ Ended.Alike W' r r' ∧
        g = r.callback k f ∧ vs = [Ended.payload r']) ∧
      (Value.closure id none params code env).LeadsTo [k, f] m g vs m' := by
    apply Value.exists_leadsTo
    intro G hG
    have hfollowed : body.Followed own G t.User false (env.answering i) none m (r.map .value)
        (some c) m₁ := h.followed ⟨false, hbody⟩ (.lowered hidle)
    have htake : (Exits.ofContinuations k f).Take own G W (r.map .value) (some c) m₁ := by
      apply Exits.Take.ofContinuations
      intro W' wrap m' r' hm hr hlast
      exact hG _ _ _ ⟨W', r', hm, hr, rfl, rfl⟩ wrap
    obtain hdelivers | ⟨_, _, _, _, -, hlast, -⟩ :=
      hfollowed.called (fun _ hy => hy.1) (henv.answering i) hm hcompile htake id
    · exact hdelivers
    · cases hlast
  obtain ⟨_, _, m', ⟨W', r', hm, hr, rfl, rfl⟩, hleads⟩ := hcalled
  exact ⟨W', m', r', hm, hr, hleads⟩

/-- Calling a coroutine does everything that a run of its body does up to the first awaited call:
it comes to the call of the operation, with alike arguments and two continuations on an alike
machine.  Where the body ends without an awaited call, calling the coroutine comes to the call
of a continuation with what the body gives, or the condition that the body raises leaves the
call.  Where the body ends after a suspension, the call returns, and the run that goes on from
there comes to the call of a continuation. -/
theorem coroutine_call_follows_body (hm : Machine.Alike own 0 W m m)
    (hbody : body.InBody t.User false) (henv : Env.Alike W t.User env env)
    (hcompile : Coroutine.compile Table.default body t = .ok (.lambda none params code) t')
    (id : Nat) (k f : Value) :
  (∀ op args m₁, Pauses false (.tree body) env m op args m₁ →
    ∃ W' op' args' m' success failure, Machine.Alike own 0 W' m₁ m' ∧ Value.Alike W' op op' ∧
      List.Forall₂ (Value.Alike W') args args' ∧
      (Value.closure id none params code env).HandsOver [k, f] m op'
        (args' ++ m'.continuations success failure) m'.suspending) ∧
  (∀ (r : Ended Value) m₁,
    Direct .evaluated false (.tree body) env none m (r.map .value) none m₁ →
    ∃ W' m' r', Machine.Alike own 0 W' m₁ m' ∧ Ended.Alike W' r r' ∧
      ((Value.closure id none params code env).HandsOver [k, f] m (r.callback k f)
          [Ended.payload r'] m' ∨
        ∃ d, r' = .error d ∧
          (Value.closure id none params code env).CallEnds [k, f] m r' m')) ∧
  (∀ i (r : Ended Value) c m₁, m.Idle →
    Direct .lowered false (.tree body) (env.answering i) none m (r.map .value) (some c) m₁ →
    ∃ W' m' r', Machine.Alike own 0 W' m₁ m' ∧ Ended.Alike W' r r' ∧
      (Value.closure id none params code env).LeadsTo [k, f] m (r.callback k f)
        [Ended.payload r'] m')
  := by
  refine ⟨fun op args m₁ h => ?_, fun r m₁ h => ?_, fun i r c m₁ hidle h => ?_⟩
  · exact h.called hm hbody henv hcompile id k f
  · exact h.called hm hbody henv hcompile id k f
  · exact h.called_late i hidle hm hbody henv hcompile id k f

end calling

/-! ### A body that comes to an awaited call -/

section waiting

/-- The machine of the example, in a level. -/
def wakefulInLevel : Machine := { wakeful with levels := [⟨[], 0⟩] }

/-- The body of the example reads the atom, and comes to the awaited call. -/
theorem aroundAwait_pauses :
  Pauses false (.tree aroundAwait) wakefulScope wakefulInLevel
    (.native (.instrument 2 .operation)) [] wakefulInLevel
  := by
  have hderef : (Expr.call (.var "deref") [.var "a"]).Ends wakefulScope wakefulInLevel
      (.ok (.int 0)) wakefulInLevel := Expr.ends_of_gives 5 rfl
  have hx : Direct .evaluated false (.bindings [("x", .call (.var "deref") [.var "a"])])
      wakefulScope none wakefulInLevel (.ok (.scope (("x", .int 0) :: wakefulScope))) none
      wakefulInLevel :=
    .bindingsCons (.plain (r := .ok _) (by decide_cbv) hderef trivial) .bindingsNil
  have hop : Direct .evaluated false (.trees [.var "op"]) (("x", .int 0) :: wakefulScope) none
      wakefulInLevel (.ok (.values [.native (.instrument 2 .operation)])) none wakefulInLevel :=
    .treesCons (.plain (r := .ok _) (by decide_cbv) (Expr.ends_of_gives 5 rfl) trivial)
      .treesNil
  exact .bind aroundAwait_needs hx (.seq (by decide_cbv)
    (.statementsHead (List.cons_ne_nil _ _) (.await (by decide_cbv) hop)))

/-- A call of the coroutine of the example comes to the call of the operation. -/
theorem aroundAwait_call_reaches_operation :
  ∃ params code t', Coroutine.compile Table.default aroundAwait wakefulNames =
      .ok (.lambda none params code) t' ∧
    ∃ W' op' args' m' success failure, Machine.Alike 0 0 W' wakefulInLevel m' ∧
      Value.Alike W' (.native (.instrument 2 .operation)) op' ∧
      List.Forall₂ (Value.Alike W') [] args' ∧
      (Value.closure 3 none params code wakefulScope).HandsOver
        [.native (.instrument 0 (.receive .completed)), .native (.instrument 1 (.receive .failed))]
        wakefulInLevel op'
        (args' ++ m'.continuations success failure) m'.suspending
  := by
  have hok : compiles aroundAwait wakefulNames = true := by decide +kernel
  obtain ⟨params, code, t', hcompile⟩ := exists_compile hok
  have hfollows := coroutine_call_follows_body wakeful_sound.alike aroundAwait_inBody
    (wakefulScope_alike _) hcompile 3 (.native (.instrument 0 (.receive .completed)))
    (.native (.instrument 1 (.receive .failed)))
  exact ⟨params, code, t', hcompile, hfollows.1 _ _ _ aroundAwait_pauses⟩

end waiting

end Skein
