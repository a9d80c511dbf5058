import Skein.Proofs.Levels
import Skein.Proofs.Rehearsal

/-!
# Levels are closed when they are empty

A computation in a level of its own is finished with all the work that it lets wait there, and
all the work that this work lets wait: the level is closed only when no work waits in it,
whether steps are limited or not, and every piece of work that has waited has come to a result
by then.  A continuation that is called outside of every level goes on in a level of its own.
-/

namespace Skein

open Run Trampoline

variable {m m' : Machine} {c fuel : Nat} {r : Ended Value}

/-- The condition that a computation has raised, if it has raised one. -/
def Ended.raised? {α : Type} : Ended α → Option (Condition Value)
  | .ok _ => none
  | .error d => some d

/-- A computation that has raised a condition has ended with it. -/
theorem Ended.raised?_eq_some_iff {α : Type} {r : Ended α} {d : Condition Value} :
  r.raised? = some d ↔ r = .error d
  := by
  cases r with
  | ok a => exact ⟨nofun, nofun⟩
  | error e => exact ⟨fun h => congrArg _ (Option.some.inj h), fun h => by cases h; rfl⟩

/-! ### Taking the work that waits -/

/-- A piece of work that has been taken, and what it has come to with all the steps of its
value. -/
structure Attempted where
  work : Work
  result : Ended Value

namespace Trampoline

/-- Count a step and do some work; the value takes all its steps. -/
def performAll (call : Call) (fuel : Nat) (work : Work) : Run Value := do
  Run.step
  let v ← perform call work
  force call fuel v

/-- The first piece of work that waits in the innermost level is taken and done, again and again,
until none waits. -/
inductive Empties (call : Call) : Machine → List Attempted → Machine → Prop where
  | none {m : Machine} {steps : Nat} {levels : List Level}
    (hl : m.levels = ⟨[], steps⟩ :: levels) : Empties call m [] m
  | next {m m₁ m₂ : Machine} {a : Attempted} {as : List Attempted} {fuel : Nat}
    {queue : List Work} {steps : Nat} {levels : List Level}
    (hl : m.levels = ⟨a.work :: queue, steps⟩ :: levels)
    (hdone : (performAll call fuel a.work).Gives { m with levels := ⟨queue, steps⟩ :: levels }
      a.result m₁)
    (hrest : Empties call m₁ as m₂) : Empties call m (a :: as) m₂

/-- What has come of a computation in a level of its own that has been finished: it has come to
a result, with all the steps of its value; the work that then waited in its level has been done,
with what was added meanwhile; and the level has been closed when no work waited in it.  It comes
to the condition that the computation has raised, or else to the first one that the work has
raised, or else to the value. -/
inductive Completes (call : Call) (start : Run Value) (m : Machine) : Ended Value → Machine → Prop
    where
  | closed {m₁ m₂ : Machine} {result : Ended Value} {as : List Attempted} {fuel steps : Nat}
    (hstart : (start >>= force call fuel).Gives { m with levels := ⟨[], 0⟩ :: m.levels } result m₁)
    (hempties : Empties call m₁ as m₂) (hempty : m₂.levels = ⟨[], steps⟩ :: m.levels) :
    Completes call start m (settled result (as.findSome? (·.result.raised?)))
      { m₂ with levels := m.levels }

/-- No work is taken from a level in which none waits. -/
theorem gives_dequeue_nil {steps : Nat} {levels : List Level}
    (hl : m.levels = ⟨[], steps⟩ :: levels) :
  Run.dequeue.Gives m (.ok none) m
  := by
  obtain ⟨_, _, _, _, _⟩ := m
  cases hl
  rfl

/-- Doing some work leaves a later machine. -/
theorem perform_keepsLater (work : Work) :
  (perform (Value.call c) work).Keeps (.everything Machine.Later) fun _ => True
  := by
  apply perform_keeps (Regime.everything_lawful Machine.later_keeping)
    (Regime.everything_call Machine.later_keeping c)
  exact work.holds_everything _

/-- Doing some work with all the steps of its value leaves a later machine. -/
theorem performAll_later {work : Work}
    (h : (performAll (Value.call c) fuel work).Gives m r m') :
  m.Later m'
  := by
  have hR := Regime.everything_lawful Machine.later_keeping
  have hcall := Regime.everything_call Machine.later_keeping c
  have hkeeps : (performAll (Value.call c) fuel work).Keeps (.everything Machine.Later)
      fun _ => True := by
    apply Keeps.bind hR (Keeps.step hR)
    intro _ _
    apply Keeps.bind hR (perform_keepsLater work)
    intro v _
    exact force_keeps hR hcall fuel trivial
  exact hkeeps.kept h

/-- Doing the work that waits empties the innermost level. -/
theorem runWaiting_empties {first : Option (Condition Value)}
    {late : Option (Condition Value)} {level : Level} {levels : List Level}
    (hl : m.levels = level :: levels)
    (h : (runWaiting (Value.call c) fuel first).Gives m (.ok late) m') :
  ∃ as steps, Empties (Value.call c) m as m' ∧ m'.levels = ⟨[], steps⟩ :: levels ∧
    late = (first <|> as.findSome? (·.result.raised?))
  := by
  induction fuel generalizing first m level with
  | zero => cases h
  | succ fuel ih =>
    obtain ⟨queue, steps⟩ := level
    cases queue with
    | nil =>
      obtain ⟨hlate, rfl⟩ := h.unique ((gives_dequeue_nil hl).bind (gives_pure first m))
      cases hlate
      exact ⟨[], steps, .none hl, hl, by cases late <;> rfl⟩
    | cons work queue =>
      obtain ⟨next, m₁, hnext, h⟩ | ⟨_, hd, _⟩ := gives_bind_iff.1 h
      case inr => cases hd
      obtain ⟨hsome, rfl⟩ := hnext.unique (gives_dequeue hl)
      cases hsome
      obtain ⟨result, m₁, hattempt, h⟩ | ⟨_, hd, _⟩ := gives_bind_iff.1 h
      case inr => cases hd
      obtain ⟨result, hresult, hdone⟩ := gives_attempt_iff.1 hattempt
      cases hresult
      obtain ⟨queue₁, steps₁, hl₁⟩ := (performAll_later hdone).levels_eq rfl
      have hmore : (runWaiting (Value.call c) fuel
          (first <|> Ended.raised? result)).Gives m₁ (.ok late) m' := by
        cases first <;> cases result <;> exact h
      obtain ⟨as, steps', hempties, hl', hlate⟩ := ih hl₁ hmore
      refine ⟨⟨work, result⟩ :: as, steps', .next hl hdone hempties, hl', ?_⟩
      rw [hlate]
      cases first <;> cases result <;> rfl

/-- A computation in a level of its own is finished, when it leaves a later machine. -/
theorem bounce_completes {start : Run Value}
    (hstart : start.Keeps (.everything Machine.Later) fun _ => True)
    (h : (bounce (Value.call c) fuel start).Gives m r m') :
  Completes (Value.call c) start m r m'
  := by
  have hR := Regime.everything_lawful Machine.later_keeping
  have hkeeps : (start >>= force (Value.call c) fuel).Keeps (.everything Machine.Later)
      fun _ => True := by
    apply Keeps.bind hR hstart
    intro v _
    exact force_keeps hR (Regime.everything_call Machine.later_keeping c) fuel trivial
  obtain ⟨m₂, hlevel, rfl⟩ := bounce_level h
  obtain ⟨result, m₁, hattempt, hlevel⟩ | ⟨_, hd, _⟩ := gives_bind_iff.1 hlevel
  case inr => cases hd
  obtain ⟨result, hresult, hcomes⟩ := gives_attempt_iff.1 hattempt
  cases hresult
  obtain ⟨late, m₂, hwaiting, hsettled⟩ | ⟨_, hd, _⟩ := gives_bind_iff.1 hlevel
  case inr => cases hd
  cases hsettled
  have hlater : Machine.Later { m with levels := ⟨[], 0⟩ :: m.levels } m₁ :=
    hkeeps.kept hcomes
  obtain ⟨queue₁, steps₁, hl₁⟩ := hlater.levels_eq rfl
  obtain ⟨as, steps, hempties, hl₂, hlate⟩ := runWaiting_empties hl₁ hwaiting
  have hclosed : { m₂ with levels := m₂.levels.tail } = { m₂ with levels := m.levels } := by
    rw [hl₂]
    rfl
  rw [hlate, hclosed]
  exact .closed hcomes hempties hl₂

/-- Work that is resumed outside of every level is finished. -/
theorem resume_completes {work : Work} (hl : m.levels = [])
    (h : (resume (Value.call c) fuel work).Gives m r m') :
  Completes (Value.call c) (perform (Value.call c) work) m r m'
  := by
  have hresume : resume (Value.call c) fuel work m =
      bounce (Value.call c) fuel (perform (Value.call c) work) m := by
    obtain ⟨_, _, _, _, _⟩ := m
    cases hl
    rfl
  unfold Gives at h
  rw [hresume] at h
  exact bounce_completes (perform_keepsLater work) h

end Trampoline

/-! ### Calling continuations -/

/-- Whether a function goes on with a suspended call, or delivers the result of a coroutine. -/
def Native.isContinuation : Native Value → Bool
  | awaitContinuation .. | awaitFailure .. | settle .. => true
  | _ => false

/-- The machine in which an execution has been settled, if it was not before. -/
def Machine.settling (m : Machine) (execution : Nat) (outcome : Outcome) : Machine :=
  let executions := m.heap.executions.modify (execution - 1) (·.change (.settled outcome))
  { m with heap := { m.heap with executions } }

/-- The work with which a continuation goes on that is called with a value, and the machine when it
does: the state of an execution has changed. -/
inductive Native.GoesOn (m : Machine) (v : Value) : Native Value → Work → Machine → Prop where
  | succeed {id : Nat} {snapshot : Context Value} {k : Value} :
    GoesOn m v (.awaitContinuation id snapshot k) (.resumption snapshot k v)
      (m.changed snapshot .resumed)
  | fail {id : Nat} {snapshot : Context Value} {k : Value} {d : Condition Value}
    (hd : (Run.thrown v).Gives m (.ok d) m) :
    GoesOn m v (.awaitFailure id snapshot k) (.resumption snapshot k (.condition d))
      (m.changed snapshot .resumed)
  | settle {id execution : Nat} {outcome : Outcome} {target : Value} :
    GoesOn m v (.settle id execution outcome target) (.delivery m.context target v)
      (m.settling execution outcome)

/-- The condition that throwing a value raises is found without a change. -/
theorem Run.thrown_gives {v : Value} {s : Ended (Condition Value)}
    (h : (Run.thrown v).Gives m s m') :
  m' = m ∧ ∃ d, s = .ok d
  := by
  unfold Run.thrown at h
  split at h
  · cases s <;> cases h
    exact ⟨rfl, _, rfl⟩
  · cases s <;> cases h
    exact ⟨rfl, _, rfl⟩
  · obtain ⟨text, m₁, htext, h⟩ | ⟨d, -, htext⟩ := gives_bind_iff.1 h
    · cases s <;> cases h
      unfold Gives textOf at htext
      split at htext <;> cases htext
      exact ⟨rfl, _, rfl⟩
    · unfold Gives textOf at htext
      split at htext <;> cases htext

/-- The work of a suspended call is resumed. -/
theorem Continuation.continueWith_resumes {snapshot : Context Value} {k v : Value}
    (h : (continueWith (Value.call c) fuel snapshot k v).Gives m r m') :
  (resume (Value.call c) fuel (.resumption snapshot k v)).Gives (m.changed snapshot .resumed) r m'
  := by
  have hchange := m.gives_changeStateIn snapshot .resumed
  obtain ⟨_, m₁, hchanged, h⟩ | ⟨_, _, hchanged⟩ := gives_bind_iff.1 h
  · obtain ⟨-, rfl⟩ := hchanged.unique hchange
    exact h
  · cases (hchanged.unique hchange).1

/-- A continuation that is called goes on with some work, which is resumed. -/
theorem Native.continuation_goes_on {g : Native Value} {v : Value} (hg : g.isContinuation = true)
    (h : (Value.call fuel (.native g) [v]).Gives m r m') :
  ∃ c work m₁, g.GoesOn m v work m₁ ∧ (resume (Value.call c) c work).Gives m₁ r m'
  := by
  cases fuel with
  | zero => cases r <;> cases h
  | succ c =>
    cases g with
    | awaitContinuation id snapshot k =>
      have hgoes : (Continuation.continueWith (Value.call c) c snapshot k v).Gives m r m' := h
      exact ⟨c, _, _, .succeed, Continuation.continueWith_resumes hgoes⟩
    | awaitFailure id snapshot k =>
      have hfail : (Run.thrown v >>= fun d => Continuation.continueWith (Value.call c) c snapshot k
        (.condition d)).Gives m r m' := h
      obtain ⟨d, m₁, hthrown, hgoes⟩ | ⟨d, _, hthrown⟩ := gives_bind_iff.1 hfail
      · obtain ⟨rfl, -⟩ := Run.thrown_gives hthrown
        exact ⟨c, _, _, .fail hthrown, Continuation.continueWith_resumes hgoes⟩
      · obtain ⟨-, _, hd⟩ := Run.thrown_gives hthrown
        cases hd
    | settle id execution outcome target => exact ⟨c, _, _, .settle, h⟩
    | _ => cases hg

/-- Going on leaves the levels and the context as they are. -/
theorem Native.GoesOn.unchanged {g : Native Value} {v : Value} {work : Work} {m₁ : Machine}
    (h : g.GoesOn m v work m₁) :
  m₁.levels = m.levels ∧ m₁.context = m.context
  := by
  cases h <;> exact ⟨rfl, rfl⟩

/-- A continuation that is called outside of every level goes on with some work in a level of its
own, and has completed it when the call ends. -/
theorem Native.continuation_completes {g : Native Value} {v : Value}
    (hg : g.isContinuation = true) (hl : m.levels = [])
    (h : (Value.call fuel (.native g) [v]).Gives m r m') :
  ∃ c work m₁, g.GoesOn m v work m₁ ∧
    Completes (Value.call c) (perform (Value.call c) work) m₁ r m'
  := by
  obtain ⟨c, work, m₁, hgoes, hresume⟩ := continuation_goes_on hg h
  exact ⟨c, work, m₁, hgoes, resume_completes (hgoes.unchanged.1.trans hl) hresume⟩

end Skein
