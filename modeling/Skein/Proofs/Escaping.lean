import Skein.Proofs.Starting

/-!
# Errors of callbacks

The callback for the result of a coroutine is called by the level in which the body has come to
its end.  When the operations of the body open no levels of their own, this is the level of the
start, or that of a late delivery.  A condition that the callback raises then leaves through
that level: no code of the body runs after the callback.
-/

namespace Skein

open Coroutine Run Trampoline

variable {W : World} {m m₁ m₂ m' : Machine} {v : Value} {d : Condition Value}
  {late : Option (Condition Value)}

/-! ### Levels in which work raises a condition -/

/-- Doing the work that waits keeps the condition that was raised before it. -/
theorem runWaiting_some {call : Call} {fuel : Nat} {first : Option (Condition Value)}
    (h : (runWaiting call fuel first).Gives m (.ok late) m') :
  (runWaiting call fuel (some d)).Gives m (.ok (some d)) m'
  := by
  induction fuel generalizing first m with
  | zero => cases h
  | succ fuel ih =>
    rcases gives_bind_iff.1 h with ⟨work, m₁, hdequeue, h⟩ | ⟨_, hraised, _⟩
    · apply hdequeue.bind
      cases work with
      | none =>
        cases h
        rfl
      | some work =>
        rcases gives_bind_iff.1 h with ⟨result, m₂, hattempt, h⟩ | ⟨_, hraised, _⟩
        · apply hattempt.bind
          cases first with
          | none =>
            cases result with
            | ok v => exact ih h
            | error c => exact ih h
          | some c => exact ih h
        · cases hraised
    · cases hraised

/-- A piece of work comes to an end: it is done, and the value that it comes to takes its
steps. -/
def Work.ComesTo (work : Work) (m : Machine) (r : Ended Value) (m' : Machine) : Prop :=
  Eventually fun c f => (perform (Value.call c) work >>= force (Value.call c) f).Gives m r m'

/-- A level comes to the condition that its first work raises, whatever the rest of the work
comes to. -/
theorem Machine.Clears.raised {work : Work} {queue : List Work} {steps : Nat}
    {levels : List Level} (hl : m.levels = ⟨work :: queue, steps⟩ :: levels)
    (hlimit : m.limit = none)
    (h : work.ComesTo { m with levels := ⟨queue, steps⟩ :: levels } (.error d) m₁)
    (hclears : m₁.Clears late m') :
  m.Clears (some d) m'
  := by
  apply (h.and hclears).succ
  rintro c n ⟨h, hclears⟩
  apply (gives_dequeue hl).bind
  have hstep := gives_step (m := { m with levels := ⟨queue, steps⟩ :: levels }) hlimit
  apply (hstep.bind h).attempt.bind
  exact runWaiting_some hclears

/-! ### The callback of a coroutine -/

section escaping

variable {t t' : SymbolTable} {body code : Expr} {params : List Symbol} {env : Env}
  {last : Option (Context Value)} {r : Ended Value} {resolve reject : Value}

/-- The machine on which the callback for the result of a coroutine is called is alike to the one
on which a run of its body has ended, with the execution settled and nothing else waiting.  A
condition that the callback raises there, by itself or in a step of its value, leaves through
the start of the coroutine, or through a delivery that is late, once the work has been done
that the callback has let wait in its level.  Nothing else happens after the callback. -/
theorem callback_error_leaves (hm : m.Sound W) (hbody : body.InBody t.User false)
    (henv : Env.Alike W t.User env env)
    (hcompile : Coroutine.compile Table.default body t = .ok (.lambda none params code) t')
    (hresolve : resolve.isCallable = true) (hreject : reject.isCallable = true) (i id : Nat)
    (h : Direct .lowered false (.tree body) (env.answering i) none m.started (r.map .value) last
      m₁) :
  ∃ W' m' v' steps levels context,
    Machine.Alike m.nextExecution 0 W' m₁ m' ∧ Value.Alike W' r.payload v' ∧
    ∀ d m₂ late m₃, (Work.delivery m'.context (r.callback resolve reject) v').ComesTo
        { m'.finished m.nextExecution r.outcome with levels := ⟨[], steps⟩ :: levels, context }
        (.error d) m₂ →
      m₂.Clears late m₃ →
      ∃ levels context,
        (Value.native (.primitive (.coroutine .run))).CallEnds
          [.closure id none params code env, resolve, reject] m (.error d)
          { m₃ with levels, context } ∨
        ∃ m₄, (Value.native (.primitive (.coroutine .run))).CallEnds
            [.closure id none params code env, resolve, reject] m
            (.ok (.execution m.nextExecution)) m₄ ∧
          Eventually fun c f => (Instrument.deliverAll (Value.call c) f).Gives m₄ (.error d)
            { m₃ with levels, context }
  := by
  obtain ⟨u, m₂, hrest, hstart⟩ := h.starts hm hbody (fun _ hx => hx.1) (henv.answering i)
    hcompile id 2 m.nextId (m.nextId + 1) resolve reject
  obtain ⟨-, -, m₃, c, hsettles, harrives⟩ := hrest.arrives .none m.closing fun m' => ⟨_, _, rfl⟩
  obtain @⟨W', m', r', steps, levels, halike, hr⟩ := hsettles
  have houtcome : r.outcome = r'.outcome := by cases hr <;> rfl
  refine ⟨W', m', r'.payload, steps, levels, c, halike, hr.payload, ?_⟩
  intro d m₂ late m₃ hraises hlate
  rw [houtcome] at hraises
  obtain ⟨w, m₄, late₁, m₅, levels', context, hforces, hclears, hfollow⟩ :=
    harrives (some d) m₃ (.raised rfl halike.limit' hraises hlate)
  have hends := run_ends (r := .ok w) rfl hresolve hreject
    ((hstart.and hforces).mono fun _ _ ⟨hstart, hforces⟩ => hstart.bind hforces) hclears
  have hleaves := hfollow (.error d) _ (.of_forall fun _ _ => gives_raise d _)
  refine ⟨levels', context, ?_⟩
  cases late₁ with
  | some d' =>
    obtain ⟨hd, hclosed⟩ := hleaves.raised
    cases hd
    left
    rw [hclosed]
    exact hends
  | none => exact .inr ⟨_, hends, hleaves⟩

end escaping

/-! ### A callback that raises a condition -/

section refusing

/-- A callback that does not take the one value that it is called with. -/
def refusing : Value := .native (.primitive (.coroutine .run))

/-- The condition of a call with too few arguments. -/
def refused : Condition Value :=
  ⟨.arityError, (Arity.exactly 3).complaint "run" 1, .nil⟩

/-- The callback raises a condition wherever it is called. -/
theorem refusing_comesTo (snapshot : Context Value) (v : Value) (m : Machine) :
  (Work.delivery snapshot refusing v).ComesTo m (.error refused) m
  := by
  refine ⟨1, fun c f hc _ => ?_⟩
  obtain ⟨c, rfl⟩ := Nat.exists_eq_add_of_le' hc
  rfl

/-- The condition that the callback raises for the value of the body leaves through the start of
its coroutine, or through a late delivery. -/
theorem refusing_error_leaves :
  ∃ (params : List Symbol) (code : Expr) (t' : SymbolTable) (m₁ : Machine)
    (levels : List Level) (context : Context Value),
    Coroutine.compile Table.default aroundAwait wakefulNames = .ok (.lambda none params code) t' ∧
    ((Value.native (.primitive (.coroutine .run))).CallEnds
      [.closure 3 none params code wakefulScope, refusing, receiver .failed] wakeful
      (.error refused) { m₁ with levels, context } ∨
    ∃ m₂, (Value.native (.primitive (.coroutine .run))).CallEnds
        [.closure 3 none params code wakefulScope, refusing, receiver .failed] wakeful
        (.ok (.execution 1)) m₂ ∧
      Eventually fun c f => (Instrument.deliverAll (Value.call c) f).Gives m₂ (.error refused)
        { m₁ with levels, context })
  := by
  have hok : compiles aroundAwait wakefulNames = true := by decide +kernel
  obtain ⟨params, code, t', hcompile⟩ := exists_compile hok
  obtain ⟨last, m₁, hdirect⟩ := aroundAwait_direct
  obtain ⟨W, m', v', steps, levels, context, -, -, hleaves⟩ := callback_error_leaves wakeful_sound
    aroundAwait_inBody (wakefulScope_alike _) hcompile (rfl : refusing.isCallable = true)
    (rfl : (receiver .failed).isCallable = true) 3 3
    (hdirect.within Manner.steady_within_lowered)
  obtain ⟨levels', context', hends⟩ := hleaves refused _ none _
    (refusing_comesTo m'.context v' _) (.empty rfl)
  exact ⟨params, code, t', _, levels', context', hcompile, hends⟩

end refusing

end Skein
