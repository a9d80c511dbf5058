import Skein.Proofs.Agree.Native

/-!
# The trampoline and its functions agree

Forcing thunks, doing work that waits and opening levels agree when the ways to call
functions agree, and so do the functions that use the trampoline.
-/

namespace Skein

open Run Trampoline

variable {L : Likeness} {n : Nat} {W : Link}

/-- Two ways to call functions agree, inside any number of levels. -/
def Trampoline.Call.Agree (L : Likeness) (call call' : Call) : Prop :=
  ∀ n W f f' vs vs', Value.Linked W f f' → List.Forall₂ (Value.Linked W) vs vs' →
    Run.Agree L n W Value.Linked (call f vs) (call' f' vs')

namespace Trampoline

variable {call call' : Call} (hcall : Call.Agree L call call') {fuel : Nat}
include hcall

/-- Taking steps agrees. -/
theorem force_agree {v v' : Value} (h : Value.Linked W v v') :
  Agree L n W Value.Linked (force call fuel v) (force call' fuel v')
  := by
  induction fuel generalizing W v v' with
  | zero => exact Agree.exhausted
  | succ fuel ih =>
    have hlinked := h
    cases h with
    | thunk hid hr =>
      apply Agree.bind Agree.step
      intro W₁ _ _ hW₁ _
      apply Agree.bind (hcall n W₁ _ _ _ _ (hr.mono hW₁) .nil)
      intro W₂ next next' hW₂ hnext
      exact ih hnext
    | _ => exact Agree.pure hlinked

omit hcall in
/-- Making thunks take their steps in linked contexts agrees. -/
theorem inContext_agree {c c' : Context Value} (hc : Context.Alike (Value.Linked W) c c')
    {v v' : Value} (h : Value.Linked W v v') :
  Agree L n W Value.Linked (inContext c v) (inContext c' v')
  := by
  have hlinked := h
  cases h with
  | thunk hid hr =>
    apply Agree.bind (Agree.native fun W' i j hW hij =>
      .inContext hij (Context.Linked.mono hW hc) (hr.mono hW))
    intro W₁ f f' hW₁ hf
    exact Agree.thunk hf
  | _ => exact Agree.pure hlinked

/-- Doing linked work agrees. -/
theorem perform_agree {work work' : Work} (h : Work.Linked W work work') :
  Agree L n W Value.Linked (perform call work) (perform call' work')
  := by
  cases h with
  | plain hf => exact hcall n W _ _ _ _ hf .nil
  | delivery hs hf ha => exact Agree.entering hs (hcall n W _ _ _ _ hf (.cons ha .nil))
  | resumption hs hk ha =>
    apply Agree.bind
    · apply Agree.entering hs
      apply Agree.bind (Agree.changeStateIn hs rfl)
      intro W₁ _ _ hW₁ _
      exact hcall n W₁ _ _ _ _ (hk.mono hW₁) (.cons (ha.mono hW₁) .nil)
    · intro W₁ next next' hW₁ hnext
      exact inContext_agree (Context.Linked.mono hW₁ hs) hnext

/-- Doing the work that waits agrees. -/
theorem runWaiting_agree {first first' : Option (Condition Value)}
    (h : Option.Rel (Condition.Linked W) first first') :
  Agree L (n + 1) W (fun W => Option.Rel (Condition.Linked W)) (runWaiting call fuel first)
    (runWaiting call' fuel first')
  := by
  induction fuel generalizing W first first' with
  | zero => exact Agree.exhausted
  | succ fuel ih =>
    have hmono : ∀ {W'}, W ≤ W' → Option.Rel (Condition.Linked W') first first' := by
      intro W' hW
      cases h with
      | some hc => exact .some (hc.mono hW)
      | none => exact .none
    apply Agree.bind Agree.dequeue
    rintro W₁ o o' hW₁ (hw | _)
    · apply Agree.bind
      · apply Agree.attempt
        apply Agree.bind Agree.step
        intro W₂ _ _ hW₂ _
        apply Agree.bind (perform_agree hcall (hw.mono hW₂))
        intro W₃ v v' hW₃ hv
        exact force_agree hcall hv
      · intro W₂ r r' hW₂ hr
        cases h with
        | none =>
          cases hr with
          | ok hv => exact ih .none
          | error hc => exact ih (.some hc)
        | some hc =>
          cases hr with
          | ok hv => exact ih (.some (hc.mono (le_trans hW₁ hW₂)))
          | error hc' => exact ih (.some (hc.mono (le_trans hW₁ hW₂)))
    · exact Agree.pure (hmono hW₁)

/-- Levels of their own agree: what they start agrees inside one more level. -/
theorem bounce_agree {start start' : Run Value}
    (h : Agree L (n + 1) W Value.Linked start start') :
  Agree L n W Value.Linked (bounce call fuel start) (bounce call' fuel start')
  := by
  intro m m' hm
  have hm₁ : Machine.Linked L (n + 1) W { m with levels := ⟨[], 0⟩ :: m.levels }
      { m' with levels := ⟨[], 0⟩ :: m'.levels } :=
    { hm with levels := .outer .nil hm.levels }
  have hbody : Agree L (n + 1) W Value.Linked (start >>= force call fuel)
      (start' >>= force call' fuel) :=
    Agree.bind h fun W₁ v v' hW₁ hv => force_agree hcall hv
  rw [bounce_apply, bounce_apply]
  have hstart := (Agree.attempt hbody) _ _ hm₁
  revert hstart
  generalize hr : (start >>= force call fuel).attempt _ = r
  generalize (start' >>= force call' fuel).attempt _ = r'
  rintro (⟨hW₁, hresult, hm₂⟩ | ⟨_, _, _⟩ | ⟨hW₁, hm₂⟩ | ⟨hW₁, hm₂⟩)
  · have hwaiting := @runWaiting_agree _ _ _ _ _ hcall fuel _ _ .none _ _ hm₂
    dsimp only
    revert hwaiting
    generalize hl : runWaiting call fuel none _ = l
    generalize runWaiting call' fuel none _ = l'
    rintro (⟨hW₂, hlate, hm₃⟩ | ⟨_, _, _⟩ | ⟨hW₂, hm₃⟩ | ⟨hW₂, hm₃⟩)
    · apply Agreed.of_le (le_trans hW₁ hW₂)
      apply Agree.ofExcept
      · cases hlate with
        | none =>
          cases hresult with
          | ok hv => exact .ok (hv.mono hW₂)
          | error hc => exact .error (hc.mono hW₂)
        | some hc' =>
          cases hresult with
          | ok hv => exact .error hc'
          | error hc => exact .error (hc.mono hW₂)
      · exact { hm₃ with levels := hm₃.levels.tail }
    · exact absurd hl (runWaiting_ne_raised _ _ _ _ _ _)
    · exact .fault (le_trans hW₁ hW₂) hm₃
    · exact .exhausted (le_trans hW₁ hW₂) hm₃
  · obtain ⟨_, hs, _⟩ := gives_attempt_iff.1 (show Gives _ _ (.error _) _ from hr)
    cases hs
  · exact .fault hW₁ hm₂
  · exact .exhausted hW₁ hm₂

omit hcall in
/-- Letting linked work wait agrees. -/
theorem resume_agree {work work' : Work} (h : Work.Linked W work work') :
  Agree L n W Value.Linked (resume call fuel work) (resume call' fuel work')
  := by
  apply Agree.bind (Agree.enqueue h)
  rintro W₁ _ _ hW₁ ⟨rfl, rfl⟩
  exact Agree.pure (.scalar .nil)

/-- Calling linked coroutines in the level of their start agrees. -/
theorem startWith_agree (id : Nat) {coroutine coroutine' success success' failure failure' : Value}
    (hcoroutine : Value.Linked W coroutine coroutine') (hsuccess : Value.Linked W success success')
    (hfailure : Value.Linked W failure failure') :
  Agree L n W Value.Linked (startWith call id coroutine success failure)
    (startWith call' id coroutine' success' failure')
  := by
  apply Agree.bind
  · apply Agree.attempt
    exact hcall n W _ _ _ _ hcoroutine (.cons hsuccess (.cons hfailure .nil))
  · intro W₁ r r' hW₁ hr
    cases hr with
    | ok hv => exact Agree.pure hv
    | error hcond =>
      apply Agree.bind (Agree.executionState id)
      rintro W₂ state _ hW₂ rfl
      split
      · exact Agree.raiseCondition (hcond.mono hW₂)
      · obtain ⟨hd⟩ := hcond
        exact hcall _ W₂ _ _ _ _ (hfailure.mono (le_trans hW₁ hW₂))
          (.cons (.condition (hd.mono hW₂)) .nil)

/-- Starting linked coroutines agrees. -/
theorem start_agree {coroutine coroutine' resolve resolve' reject reject' : Value}
    (hcoroutine : Value.Linked W coroutine coroutine') (hresolve : Value.Linked W resolve resolve')
    (hreject : Value.Linked W reject reject') :
  Agree L n W Same (start call fuel coroutine resolve reject)
    (start call' fuel coroutine' resolve' reject')
  := by
  apply Agree.bind Agree.newExecution
  rintro W₁ id _ hW₁ ⟨rfl, hid⟩
  apply Agree.bind (Agree.native fun W' i j hW hij =>
    .settle hij (hW.2.2 _ hid) (hresolve.mono (le_trans hW₁ hW)))
  intro W₂ success success' hW₂ hsuccess
  have hid₂ := hW₂.2.2 _ hid
  have hreject₂ := hreject.mono (le_trans hW₁ hW₂)
  apply Agree.bind (Agree.native fun W' i j hW hij =>
    .settle hij (hW.2.2 _ hid₂) (hreject₂.mono hW))
  intro W₃ failure failure' hW₃ hfailure
  apply Agree.bind Agree.capture
  intro W₄ c c' hW₄ hc
  have hfailure := hfailure.mono hW₄
  have hsuccess := hsuccess.mono (le_trans hW₃ hW₄)
  have hcoroutine := hcoroutine.mono (le_trans hW₁ (le_trans hW₂ (le_trans hW₃ hW₄)))
  apply Agree.bind
  · apply Agree.entering (hc.driving id)
    exact bounce_agree hcall (startWith_agree hcall id hcoroutine hsuccess hfailure)
  · intro W₅ _ _ hW₅ _
    exact Agree.pure rfl

end Trampoline

/-! ### Primitives that call functions -/

section

variable {call call' : Call} (hcall : Call.Agree L call call') {fuel : Nat}
  {vs vs' : List Value} (hvs : List.Forall₂ (Value.Linked W) vs vs')

/-- Locations of atoms as arguments agree: they stand for each other. -/
theorem AtomOp.argument_agree (name : String) {v v' : Value} (h : Value.Linked W v v') :
  Agree L n W (fun W i j => W.atoms i j) (AtomOp.argument name v) (AtomOp.argument name v')
  := by
  cases h with
  | atom hl => exact Agree.pure hl
  | _ => exact Agree.raise _ _

include hcall hvs

/-- Functions on atoms agree on linked arguments. -/
theorem AtomOp.apply_agree (op : AtomOp) :
  Agree L n W Value.Linked (op.apply call vs) (op.apply call' vs')
  := by
  cases op with
  | make =>
    rcases hvs with _ | ⟨hv, _ | ⟨_, _⟩⟩
    · exact Agree.pure (.scalar _)
    · exact Agree.newAtom hv
    · exact Agree.pure (.scalar _)
  | deref =>
    rcases hvs with _ | ⟨hv, _ | ⟨_, _⟩⟩
    · exact Agree.pure (.scalar _)
    · apply Agree.bind (AtomOp.argument_agree _ hv)
      intro W₁ location location' hW₁ hl
      exact Agree.readAtom hl
    · exact Agree.pure (.scalar _)
  | reset =>
    rcases hvs with _ | ⟨ha, _ | ⟨hv, _ | ⟨_, _⟩⟩⟩
    · exact Agree.pure (.scalar _)
    · exact Agree.pure (.scalar _)
    · apply Agree.bind (AtomOp.argument_agree _ ha)
      intro W₁ location location' hW₁ hl
      apply Agree.bind (Agree.writeAtom hl (hv.mono hW₁))
      intro W₂ _ _ hW₂ _
      exact Agree.pure (hv.mono (le_trans hW₁ hW₂))
    · exact Agree.pure (.scalar _)
  | swap =>
    rcases hvs with _ | ⟨ha, _ | ⟨hf, hs⟩⟩
    · exact Agree.pure (.scalar _)
    · exact Agree.pure (.scalar _)
    · apply Agree.bind (AtomOp.argument_agree _ ha)
      intro W₁ location location' hW₁ hl
      apply Agree.bind (Agree.readAtom hl)
      intro W₂ old old' hW₂ hold
      have hW := le_trans hW₁ hW₂
      apply Agree.bind (hcall n W₂ _ _ _ _ (hf.mono hW) (.cons hold (Value.Linked.mono_all hW hs)))
      intro W₃ new new' hW₃ hnew
      apply Agree.bind (Agree.writeAtom (hW₃.2.1 _ _ (hW₂.2.1 _ _ hl)) hnew)
      intro W₄ _ _ hW₄ _
      exact Agree.pure (hnew.mono hW₄)

omit hcall in
/-- Calling a breakpoint outside a coroutine body agrees. -/
theorem Run.scopeViolation_agree (op : Symbol) :
  Agree L n W Value.Linked (Run.scopeViolation op vs) (Run.scopeViolation op vs')
  := by
  apply Agree.bind (Agree.mapM (R := Same) (fun _ h => h)
    (hvs.imp fun v v' hv W' hW' => Agree.textOf (hv.mono hW')))
  intro W₁ texts texts' hW₁ htexts
  have htexts : texts = texts' := List.forall₂_eq_eq_eq ▸ htexts
  subst htexts
  exact Agree.raiseWith _ _ (.list (Value.Linked.mono_all hW₁ hvs))

/-- Functions for coroutines agree on linked arguments. -/
theorem CoroutineOp.apply_agree (op : CoroutineOp) :
  Agree L n W Value.Linked (op.apply call fuel vs) (op.apply call' fuel vs')
  := by
  have hstate : ∀ {W} (id : Nat),
      Agree L n W Value.Linked (CoroutineOp.stateOf id) (CoroutineOp.stateOf id) := by
    intro W id
    apply Agree.bind (Agree.executionState id)
    rintro W₁ state _ hW₁ rfl
    exact Agree.pure (.scalar _)
  cases op with
  | run =>
    rcases hvs with _ | ⟨hc, _ | ⟨hk, _ | ⟨hf, _ | ⟨_, _⟩⟩⟩⟩
    · exact Agree.pure (.scalar _)
    · exact Agree.pure (.scalar _)
    · exact Agree.pure (.scalar _)
    · apply Agree.bind (Argument.checkFunction_agree _ hc)
      intro W₁ _ _ hW₁ _
      apply Agree.bind (Argument.checkFunction_agree _ (hk.mono hW₁))
      intro W₂ _ _ hW₂ _
      apply Agree.bind (Argument.checkFunction_agree _ (hf.mono (le_trans hW₁ hW₂)))
      intro W₃ _ _ hW₃ _
      have hW := le_trans hW₁ (le_trans hW₂ hW₃)
      apply Agree.bind (start_agree hcall (hc.mono hW) (hk.mono hW) (hf.mono hW))
      rintro W₄ id _ hW₄ rfl
      exact Agree.pure (.execution id)
    · exact Agree.pure (.scalar _)
  | thunk =>
    rcases hvs with _ | ⟨hf, _ | ⟨_, _⟩⟩
    · exact Agree.pure (.scalar _)
    · exact Argument.toThunk_agree hf
    · exact Agree.pure (.scalar _)
  | unwind =>
    rcases hvs with _ | ⟨hv, _ | ⟨_, _⟩⟩
    · exact Agree.pure (.scalar _)
    · exact bounce_agree hcall (Agree.pure hv)
    · exact Agree.pure (.scalar _)
  | resolved =>
    rcases hvs with _ | ⟨hv, _ | ⟨hk, _ | ⟨hf, _ | ⟨_, _⟩⟩⟩⟩
    · exact Agree.pure (.scalar _)
    · exact Agree.pure (.scalar _)
    · exact Agree.pure (.scalar _)
    · exact hcall n W _ _ _ _ hk (.cons hv .nil)
    · exact Agree.pure (.scalar _)
  | rejected =>
    rcases hvs with _ | ⟨hv, _ | ⟨hk, _ | ⟨hf, _ | ⟨_, _⟩⟩⟩⟩
    · exact Agree.pure (.scalar _)
    · exact Agree.pure (.scalar _)
    · exact Agree.pure (.scalar _)
    · exact hcall n W _ _ _ _ hf (.cons hv .nil)
    · exact Agree.pure (.scalar _)
  | state =>
    rcases hvs with _ | ⟨hv, _⟩
    · apply Agree.bind Agree.capture
      intro W₁ c c' hW₁ hc
      rw [hc.execution]
      split
      · exact hstate _
      · exact Agree.pure (.scalar _)
    · cases hv with
      | execution id => exact hstate id
      | _ => exact Agree.raise _ _
  | await => exact Run.scopeViolation_agree hvs _

/-- Primitives agree on linked arguments. -/
theorem Primitive.apply_agree (p : Primitive) :
  Agree L n W Value.Linked (p.apply call fuel vs) (p.apply call' fuel vs')
  := by
  apply Agree.bind (Agree.checkArity _ _ hvs)
  intro W₁ _ _ hW₁ _
  have hvs := Value.Linked.mono_all hW₁ hvs
  cases p with
  | arithmetic op => exact ArithmeticOp.apply_agree op hvs
  | comparison op => exact ComparisonOp.apply_agree op hvs
  | atom op => exact AtomOp.apply_agree hcall hvs op
  | sequence op => exact SequenceOp.apply_agree op hvs
  | condition op => exact ConditionOp.apply_agree op hvs
  | coroutine op => exact CoroutineOp.apply_agree hcall hvs op
  | text op => exact TextOp.apply_agree op hvs
  | test op => exact Agree.pure (TestOp.apply_agree op hvs)

/-! ### Other native functions -/

omit hcall hvs in
/-- Noting a timer agrees. -/
theorem TimerOp.schedule_agree {time time' callback callback' value value' : Value}
    (htime : Value.Linked W time time') (hcallback : Value.Linked W callback callback')
    (hvalue : Value.Linked W value value') :
  Agree L n W Value.Linked (TimerOp.schedule time callback value)
    (TimerOp.schedule time' callback' value')
  := by
  apply Agree.bind (Argument.int_agree htime)
  rintro W₁ k _ hW₁ rfl
  split
  · exact Agree.raise _ _
  · apply Agree.bind (Agree.change _)
    · intro W₂ _ _ hW₂ _
      exact Agree.pure (.scalar _)
    · intro m m' hm
      have htimer : L.whole → Timer.Rel (Value.Linked W₁)
          ⟨m.clock + k.toInt.toNat, m.scheduled + 1, callback, value⟩
          ⟨m'.clock + k.toInt.toNat, m'.scheduled + 1, callback', value'⟩ :=
        fun hL => ⟨by rw [hm.clock], by rw [hm.scheduled hL], hcallback.mono hW₁, hvalue.mono hW₁⟩
      exact { hm with
        timers := fun hL => List.rel_append (hm.timers hL) (.cons (htimer hL) .nil)
        scheduled := fun hL => by
          dsimp only
          rw [hm.scheduled hL] }

/-- Functions of the clock agree on linked arguments. -/
theorem TimerOp.apply_agree (op : TimerOp) :
  Agree L n W Value.Linked (op.apply call vs) (op.apply call' vs')
  := by
  apply Agree.bind (Agree.checkArity _ _ hvs)
  intro W₁ _ _ hW₁ _
  have hvs := Value.Linked.mono_all hW₁ hvs
  cases op with
  | delay =>
    rcases hvs with _ | ⟨ht, _ | ⟨hv, _ | ⟨hk, _ | ⟨hf, _ | ⟨_, _⟩⟩⟩⟩⟩
    · exact Agree.pure (.scalar _)
    · exact Agree.pure (.scalar _)
    · exact Agree.pure (.scalar _)
    · exact Agree.pure (.scalar _)
    · exact TimerOp.schedule_agree ht hk hv
    · exact Agree.pure (.scalar _)
  | failAfter =>
    rcases hvs with _ | ⟨ht, _ | ⟨hv, _ | ⟨hk, _ | ⟨hf, _ | ⟨_, _⟩⟩⟩⟩⟩
    · exact Agree.pure (.scalar _)
    · exact Agree.pure (.scalar _)
    · exact Agree.pure (.scalar _)
    · exact Agree.pure (.scalar _)
    · apply Agree.bind (Agree.plainTextOf hv)
      rintro W₂ text _ hW₂ rfl
      exact TimerOp.schedule_agree (ht.mono hW₂) (hf.mono hW₂) (.condition (.scalar _))
    · exact Agree.pure (.scalar _)
  | now =>
    rcases hvs with _ | ⟨hk, _ | ⟨hf, _ | ⟨_, _⟩⟩⟩
    · exact Agree.pure (.scalar _)
    · exact Agree.pure (.scalar _)
    · apply Agree.get
      intro m m' hm
      rw [hm.clock]
      exact hcall n W₁ _ _ _ _ hk (.cons (.scalar _) .nil) m m' hm
    · exact Agree.pure (.scalar _)

namespace Continuation

omit hcall hvs in
/-- Continuing a suspended call agrees. -/
theorem continueWith_agree {c c' : Context Value} (hc : Context.Alike (Value.Linked W) c c')
    {k k' v v' : Value} (hk : Value.Linked W k k') (hv : Value.Linked W v v') :
  Agree L n W Value.Linked (continueWith call fuel c k v) (continueWith call' fuel c' k' v')
  := by
  apply Agree.bind (Agree.changeStateIn hc rfl)
  intro W₁ _ _ hW₁ _
  exact resume_agree (.resumption (Context.Linked.mono hW₁ hc) (hk.mono hW₁) (hv.mono hW₁))

omit hcall in
/-- Continuing with a value agrees. -/
theorem succeed_agree {c c' : Context Value} (hc : Context.Alike (Value.Linked W) c c')
    {k k' : Value} (hk : Value.Linked W k k') :
  Agree L n W Value.Linked (succeed call fuel c k vs) (succeed call' fuel c' k' vs')
  := by
  apply Agree.bind (Agree.checkArity _ _ hvs)
  intro W₁ _ _ hW₁ _
  exact continueWith_agree (Context.Linked.mono hW₁ hc) (hk.mono hW₁)
    ((Value.Linked.headD hvs).mono hW₁)

omit hcall in
/-- Continuing with an error agrees. -/
theorem fail_agree {c c' : Context Value} (hc : Context.Alike (Value.Linked W) c c')
    {k k' : Value} (hk : Value.Linked W k k') :
  Agree L n W Value.Linked (fail call fuel c k vs) (fail call' fuel c' k' vs')
  := by
  apply Agree.bind (Agree.checkArity _ _ hvs)
  intro W₁ _ _ hW₁ _
  apply Agree.bind (Agree.thrown ((Value.Linked.headD hvs).mono hW₁))
  intro W₂ d d' hW₂ hd
  obtain ⟨hd⟩ := hd
  exact continueWith_agree (Context.Linked.mono (le_trans hW₁ hW₂) hc) (hk.mono (le_trans hW₁ hW₂))
    (.condition hd)

omit hcall in
/-- Delivering a result agrees. -/
theorem settle_agree {id : Nat} (hid : W.executions id) (outcome : Outcome)
    {target target' : Value} (ht : Value.Linked W target target') :
  Agree L n W Value.Linked (settle call fuel id outcome target vs)
    (settle call' fuel id outcome target' vs')
  := by
  apply Agree.bind (Agree.checkArity _ _ hvs)
  intro W₁ _ _ hW₁ _
  apply Agree.bind (Agree.finish outcome (hW₁.2.2 _ hid))
  intro W₂ _ _ hW₂ _
  apply Agree.bind Agree.capture
  intro W₃ c c' hW₃ hc
  have hW := le_trans hW₁ (le_trans hW₂ hW₃)
  exact resume_agree (.delivery hc (ht.mono hW) ((Value.Linked.headD hvs).mono hW))

end Continuation

namespace Builtin

omit hcall in
/-- Names and values in turn agree as bindings. -/
theorem bindings_agree :
  Agree L n W (fun W => List.Forall₂ (Binding.Alike (Value.Linked W))) (bindings vs)
    (bindings vs')
  := by
  induction vs using bindings.induct generalizing W vs' with
  | case1 x v rest name hname ih =>
    rcases hvs with _ | ⟨hx, _ | ⟨hv, hrest⟩⟩
    rw [bindings, bindings, ← hx.symbol?_eq, hname]
    apply Agree.bind (ih hrest)
    intro W₁ bs bs' hW₁ hbs
    exact Agree.pure (.cons (.mk (hv.mono hW₁)) hbs)
  | case2 x v rest hnone =>
    rcases hvs with _ | ⟨hx, _ | ⟨hv, hrest⟩⟩
    rw [bindings, bindings, ← hx.symbol?_eq, hnone, hx.typeName_eq]
    exact Agree.raise _ _
  | case3 vs hne =>
    rcases hvs with _ | ⟨hx, _ | ⟨hv, hrest⟩⟩
    · exact Agree.pure .nil
    · exact Agree.pure .nil
    · exact absurd rfl (hne _ _ _)

omit hcall hvs in
/-- Depths as values agree. -/
theorem depthValue_agree (depth : Nat) :
  Agree L n W Value.Linked (depthValue depth) (depthValue depth)
  := by
  unfold depthValue
  split
  · exact Agree.pure (.scalar _)
  · exact Agree.fault _

omit hcall in
/-- Functions that compiled trees hold agree on linked arguments. -/
theorem apply_agree (b : Builtin) :
  Agree L n W Value.Linked (b.apply vs) (b.apply vs')
  := by
  have hother : ∀ b : Builtin, Agree L n W Value.Linked
      (do Run.checkArity (.exactly 1) b.name vs; return Value.nil)
      (do Run.checkArity (.exactly 1) b.name vs'; return Value.nil) := by
    intro b
    apply Agree.bind (Agree.checkArity _ _ hvs)
    intro W₁ _ _ hW₁ _
    exact Agree.pure (.scalar _)
  cases b with
  | pushBindings =>
    rw [apply, apply, enterFrame, enterFrame, hvs.length_eq]
    split
    · apply Agree.bind (bindings_agree hvs)
      intro W₁ bs bs' hW₁ hbs
      apply Agree.bind (Agree.pushFrame hbs)
      rintro W₂ depth _ hW₂ rfl
      exact depthValue_agree depth
    · exact Agree.raise _ _
  | popBindings =>
    rcases hvs with _ | ⟨hv, _ | ⟨_, _⟩⟩
    · exact hother .popBindings
    · apply Agree.bind (Argument.int_agree hv)
      rintro W₁ depth _ hW₁ rfl
      split
      · exact Agree.raise _ _
      · apply Agree.bind (Agree.popFrames _)
        intro W₂ _ _ hW₂ _
        exact Agree.pure (.scalar _)
    · exact hother .popBindings
  | thunk =>
    rcases hvs with _ | ⟨hv, _ | ⟨_, _⟩⟩
    · exact hother .thunk
    · exact Argument.toThunk_agree hv
    · exact hother .thunk
  | throw =>
    rcases hvs with _ | ⟨hv, _ | ⟨_, _⟩⟩
    · exact hother .throw
    · exact Agree.throwValue hv
    · exact hother .throw
  | awaitResume =>
    rcases hvs with _ | ⟨hv, _ | ⟨_, _⟩⟩
    · exact hother .awaitResume
    · apply Agree.bind Agree.capture
      intro W₁ c c' hW₁ hc
      apply Agree.bind (Agree.changeStateIn hc rfl)
      intro W₂ _ _ hW₂ _
      have hv₂ := hv.mono (le_trans hW₁ hW₂)
      have hc₂ := Context.Linked.mono hW₂ hc
      exact Agree.native fun W' i j hW hij =>
        .awaitContinuation hij (Context.Linked.mono hW hc₂) (hv₂.mono hW)
    · exact hother .awaitResume
  | awaitReject =>
    rcases hvs with _ | ⟨hv, _ | ⟨_, _⟩⟩
    · exact hother .awaitReject
    · apply Agree.bind Agree.capture
      intro W₁ c c' hW₁ hc
      have hv₁ := hv.mono hW₁
      exact Agree.native fun W' i j hW hij =>
        .awaitFailure hij (Context.Linked.mono hW hc) (hv₁.mono hW)
    · exact hother .awaitReject

end Builtin

end

end Skein
