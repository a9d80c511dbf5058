import Skein.Proofs.Regime.Native

/-!
# The trampoline and its functions respect regimes

Forcing thunks, doing work that waits and opening levels respect a lawful regime when the
way to call functions does, and so do the native functions that call others.
-/

namespace Skein

open Run Trampoline

variable {R : Regime} (hR : R.Lawful) {call : Call} (hcall : call.Keeps R)
  {v : Value} {vs : List Value} {c : Context Value}

/-! ### The trampoline -/

namespace Trampoline

include hR in
/-- A thunk in a context. -/
theorem inContext_keeps (hc : c.Holds R.value) (hv : R.value v) :
  (inContext c v).Keeps R R.value
  := by
  unfold inContext
  split
  · have hmake : ∀ i, R.value (.native (.inContext i c _)) := fun i =>
      hR.inContext_iff.2 ⟨hc, hR.thunk_iff.1 hv⟩
    apply Keeps.bind hR (Keeps.native hR hmake)
    intro g hg
    exact Keeps.thunk hR hg
  · exact Keeps.pure hR hv

include hR hcall

/-- Taking steps. -/
theorem force_keeps (fuel : Nat) (hv : R.value v) :
  (force call fuel v).Keeps R R.value
  := by
  induction fuel generalizing v with
  | zero => exact Keeps.exhausted
  | succ fuel ih =>
    cases v with
    | thunk id f =>
      apply Keeps.bind hR (Keeps.step hR)
      intro _ _
      apply Keeps.bind hR (hcall f [] (hR.thunk_iff.1 hv) fun _ h => absurd h List.not_mem_nil)
      intro next hnext
      exact ih hnext
    | _ => exact Keeps.pure hR hv

/-- Doing work that waited. -/
theorem perform_keeps {work : Work} (hwork : work.Holds R.value) :
  (perform call work).Keeps R R.value
  := by
  cases hwork with
  | plain hf => exact hcall _ [] hf fun _ h => absurd h List.not_mem_nil
  | delivery hs hf ha =>
    exact Keeps.entering hR hs (hcall _ [_] hf (List.forall_mem_singleton.2 ha))
  | resumption hs hk ha =>
    apply Keeps.bind hR
    · apply Keeps.entering hR hs
      apply Keeps.bind hR (Keeps.changeStateIn hR _ _)
      intro _ _
      exact hcall _ [_] hk (List.forall_mem_singleton.2 ha)
    · intro next hnext
      exact inContext_keeps hR hs hnext

/-- Doing the work that waits in a level. -/
theorem runWaiting_keeps (fuel : Nat) {first : Option (Condition Value)}
    (hfirst : ∀ d ∈ first, R.value d.data) :
  (runWaiting call fuel first).Keeps R.draining fun late => ∀ d ∈ late, R.value d.data
  := by
  induction fuel generalizing first with
  | zero => exact Keeps.exhausted
  | succ fuel ih =>
    apply Keeps.bindDraining (Keeps.dequeue hR)
    rintro (_ | work) hwork
    · exact (Keeps.pure hR hfirst).draining
    · apply Keeps.bindDraining
      · apply Keeps.draining
        apply Keeps.attempt
        apply Keeps.bind hR (Keeps.step hR)
        intro _ _
        apply Keeps.bind hR (perform_keeps hR hcall (hwork work rfl))
        intro v hv
        exact force_keeps hR hcall fuel hv
      · rintro _ (⟨_⟩ | ⟨hd⟩)
        · cases first with
          | none => exact ih hfirst
          | some d => exact ih hfirst
        · cases first with
          | none =>
            apply ih
            rintro d ⟨⟩
            exact hd
          | some d => exact ih hfirst

/-- What a level comes to. -/
theorem inLevel_keeps (fuel : Nat) {start : Run Value} (hstart : start.Keeps R R.value) :
  (inLevel call fuel start).Keeps R.draining (Ended.Holds R.value R.value)
  := by
  apply Keeps.bindDraining
  · apply Keeps.draining
    apply Keeps.attempt
    apply Keeps.bind hR hstart
    intro v hv
    exact force_keeps hR hcall fuel hv
  · intro result hresult
    apply Keeps.bindDraining (runWaiting_keeps hR hcall fuel fun _ h => by cases h)
    intro late hlate
    apply Keeps.draining
    apply Keeps.pure hR
    rcases hresult with hv | hd
    · cases late with
      | none => exact .ok hv
      | some d => exact .error (hlate d rfl)
    · exact .error hd

/-- A computation in a level of its own, where one may be opened. -/
theorem bounce_kept (fuel : Nat) {start : Run Value} (hstart : start.Keeps R R.value)
    {m : Machine} (hm : m.Obeys R) (hnests : m.levels = [] ∨ R.nests) :
  R.Kept R.value m (bounce call fuel start m)
  := by
  have hopened : Machine.Obeys R { m with levels := ⟨[], 0⟩ :: m.levels } := { hm with
    levels := List.forall_mem_cons.2 ⟨fun _ h => absurd h List.not_mem_nil, hm.levels⟩ }
  have hlevel := inLevel_keeps hR hcall fuel hstart _ hopened
  rw [bounce_eq, bind_apply]
  revert hlevel
  generalize hr : inLevel call fuel start _ = r
  rintro (⟨hresult, hm₁, hk₁⟩ | ⟨_, _, _⟩ | ⟨hf⟩ | _)
  · apply (Keeps.ofExcept hR hresult _ _).after hR (hR.bounce hnests hk₁)
    exact { hm₁ with levels := fun l hl => hm₁.levels l (List.mem_of_mem_tail hl) }
  · exact absurd hr (inLevel_ne_raised _ _ _ _ _ _)
  · exact .fault hf
  · exact .exhausted

/-- A computation in a level of its own, where levels may be opened inside of others. -/
theorem bounce_keeps (hnests : R.nests) (fuel : Nat) {start : Run Value}
    (hstart : start.Keeps R R.value) :
  (bounce call fuel start).Keeps R R.value
  := fun _ hm => bounce_kept hR hcall fuel hstart hm (.inr hnests)

/-- Letting work wait, or doing it. -/
theorem resume_keeps (fuel : Nat) {work : Work} (hwork : work.Holds R.value) :
  (resume call fuel work).Keeps R R.value
  := by
  intro m hm
  cases hl : m.levels with
  | nil =>
    have hresume : resume call fuel work m = bounce call fuel (perform call work) m := by
      obtain ⟨_, _, _, _, _⟩ := m
      cases hl
      rfl
    rw [hresume]
    exact bounce_kept hR hcall fuel (perform_keeps hR hcall hwork) hm (.inl hl)
  | cons level rest =>
    have hresume : resume call fuel work m =
        .ok .nil { m with levels := { level with queue := level.queue ++ [work] } :: rest } := by
      obtain ⟨_, _, _, _, _⟩ := m
      cases hl
      rfl
    rw [hresume]
    have hlevels := hm.levels
    rw [hl] at hlevels
    obtain ⟨hlevel, hrest⟩ := List.forall_mem_cons.1 hlevels
    refine .ok (hR.scalar .nil) { hm with levels := ?_ } (hR.enqueued hl work)
    apply List.forall_mem_cons.2 ⟨?_, hrest⟩
    intro w hw
    rcases List.mem_append.1 hw with hw | hw
    · exact hlevel w hw
    · obtain rfl := List.mem_singleton.1 hw
      exact hwork

/-- What a coroutine does first that is started. -/
theorem startWith_keeps (own : Nat) {coroutine success failure : Value}
    (hc : R.value coroutine) (hsuccess : R.value success) (hfailure : R.value failure) :
  (startWith call own coroutine success failure).Keeps R R.value
  := by
  have hargs : ∀ v ∈ [success, failure], R.value v :=
    List.forall_mem_cons.2 ⟨hsuccess, List.forall_mem_singleton.2 hfailure⟩
  apply Keeps.bind hR (hcall coroutine _ hc hargs).attempt
  rintro _ (⟨hv⟩ | ⟨hd⟩)
  · exact Keeps.pure hR hv
  · apply Keeps.bind hR (Keeps.executionState hR own)
    intro state _
    split
    · exact Keeps.raiseCondition hR hd
    · exact hcall failure _ hfailure (List.forall_mem_singleton.2 (hR.condition_iff.2 hd))

/-- Starting a coroutine. -/
theorem start_keeps (hnests : R.nests) (fuel : Nat) {coroutine resolve reject : Value}
    (hc : R.value coroutine) (hresolve : R.value resolve) (hreject : R.value reject) :
  (start call fuel coroutine resolve reject).Keeps R fun _ => True
  := by
  apply Keeps.bind hR (Keeps.newExecution hR)
  intro id _
  apply Keeps.bind hR (Keeps.native hR fun _ => hR.settle_iff.2 hresolve)
  intro success hsuccess
  apply Keeps.bind hR (Keeps.native hR fun _ => hR.settle_iff.2 hreject)
  intro failure hfailure
  apply Keeps.bind hR (Keeps.capture hR)
  intro context hcontext
  apply Keeps.bind hR
  · apply Keeps.entering hR (c := context.driving id) hcontext
    apply bounce_keeps hR hcall hnests
    exact startWith_keeps hR hcall id hc hsuccess hfailure
  · intro _ _
    exact Keeps.pure hR trivial

end Trampoline

/-! ### Native functions -/

section natives

include hR

/-- The condition of a breakpoint outside of coroutines. -/
theorem Run.scopeViolation_keeps (op : Symbol) (hvs : ∀ v ∈ vs, R.value v) :
  (Run.scopeViolation op vs).Keeps R R.value
  := by
  apply Keeps.bind hR (Keeps.mapM hR fun v _ => Keeps.textOf hR v)
  intro texts _
  exact Keeps.raiseWith hR _ _ (hR.list_iff.2 hvs)

/-- Asking for the state of an execution. -/
theorem CoroutineOp.stateOf_keeps (id : Nat) :
  (CoroutineOp.stateOf id).Keeps R R.value
  := by
  apply Keeps.bind hR (Keeps.executionState hR id)
  intro state _
  exact Keeps.pure hR (hR.scalar _)

/-- Noting a timer. -/
theorem TimerOp.schedule_keeps (time : Value) {callback value : Value}
    (hcallback : R.value callback) (hvalue : R.value value) :
  (TimerOp.schedule time callback value).Keeps R R.value
  := by
  apply Keeps.bind hR (Argument.int_keeps hR time)
  intro k _
  split
  · exact Keeps.raise hR _ _
  · refine Keeps.bind hR (?_ : Run.Keeps R (fun _ => True) _) ?_
    · apply Keeps.change
      intro m hm
      refine ⟨{ hm with timers := ?_ }, hR.inert
        ⟨rfl, rfl, rfl, .of_eq rfl, rfl, _, .singleton m _ callback value⟩⟩
      intro t ht
      rcases List.mem_append.1 ht with ht | ht
      · exact hm.timers t ht
      · obtain rfl := List.mem_singleton.1 ht
        exact ⟨hcallback, hvalue⟩
    · intro _ _
      exact Keeps.pure hR (hR.scalar _)

namespace Builtin

/-- Names and values in turn as bindings. -/
theorem bindings_keeps (hvs : ∀ v ∈ vs, R.value v) :
  (bindings vs).Keeps R fun bs => ∀ b ∈ bs, R.value b.2
  := by
  induction vs using bindings.induct with
  | case1 x v rest name hname ih =>
    obtain ⟨-, hvs⟩ := List.forall_mem_cons.1 hvs
    obtain ⟨hv, hrest⟩ := List.forall_mem_cons.1 hvs
    rw [bindings, hname]
    apply Keeps.bind hR (ih hrest)
    intro bs hbs
    exact Keeps.pure hR (List.forall_mem_cons.2 ⟨hv, hbs⟩)
  | case2 x v rest hnone =>
    rw [bindings, hnone]
    exact Keeps.raise hR _ _
  | case3 vs hne =>
    rw [bindings]
    · exact Keeps.pure hR fun _ h => absurd h List.not_mem_nil
    · exact hne

/-- Depths as values. -/
theorem depthValue_keeps (depth : Nat) :
  (depthValue depth).Keeps R R.value
  := by
  unfold depthValue
  split
  · exact Keeps.pure hR (hR.scalar _)
  · exact Keeps.fault (hR.stops _ (by decide))

/-- Functions that compiled trees hold. -/
theorem apply_keeps (b : Builtin) (hb : b.movesFrames = true → R.frames)
    (hvs : ∀ v ∈ vs, R.value v) :
  (b.apply vs).Keeps R R.value
  := by
  unfold apply
  split
  · unfold enterFrame
    split
    · apply Keeps.bind hR (bindings_keeps hR hvs)
      intro bs hbs
      apply Keeps.bind hR (Keeps.pushFrame hR (hb rfl) hbs)
      intro depth _
      exact depthValue_keeps hR depth
    · exact Keeps.raise hR _ _
  · apply Keeps.bind hR (Argument.int_keeps hR _)
    intro depth _
    split
    · exact Keeps.raise hR _ _
    · apply Keeps.bind hR (Keeps.popFrames hR (hb rfl) _)
      intro _ _
      exact Keeps.pure hR (hR.scalar _)
  · exact Argument.toThunk_keeps hR (List.forall_mem_singleton.1 hvs)
  · exact Keeps.throwValue hR (List.forall_mem_singleton.1 hvs)
  · apply Keeps.bind hR (Keeps.capture hR)
    intro context hcontext
    apply Keeps.bind hR (Keeps.changeStateIn hR _ _)
    intro _ _
    exact Keeps.native hR fun _ =>
      hR.awaitContinuation_iff.2 ⟨hcontext, List.forall_mem_singleton.1 hvs⟩
  · apply Keeps.bind hR (Keeps.capture hR)
    intro context hcontext
    exact Keeps.native hR fun _ =>
      hR.awaitFailure_iff.2 ⟨hcontext, List.forall_mem_singleton.1 hvs⟩
  · apply Keeps.bind hR (Keeps.checkArity hR _ _ _)
    intro _ _
    exact Keeps.pure hR (hR.scalar _)

end Builtin

end natives

section calling

include hR hcall

/-- Functions on atoms. -/
theorem AtomOp.apply_keeps (op : AtomOp) (hvs : ∀ v ∈ vs, R.value v) :
  (op.apply call vs).Keeps R R.value
  := by
  have hargument : ∀ (name : String) (v : Value),
      (AtomOp.argument name v).Keeps R fun _ => True := by
    intro name v
    unfold AtomOp.argument
    split
    · exact Keeps.pure hR trivial
    · exact Keeps.raise hR _ _
  unfold AtomOp.apply
  dsimp only
  split
  · exact Keeps.newAtom hR (List.forall_mem_singleton.1 hvs)
  · apply Keeps.bind hR (hargument _ _)
    intro location _
    exact Keeps.readAtom hR location
  · obtain ⟨-, hvs⟩ := List.forall_mem_cons.1 hvs
    have hv := List.forall_mem_singleton.1 hvs
    apply Keeps.bind hR (hargument _ _)
    intro location _
    apply Keeps.bind hR (Keeps.writeAtom hR location hv)
    intro _ _
    exact Keeps.pure hR hv
  · obtain ⟨-, hvs⟩ := List.forall_mem_cons.1 hvs
    obtain ⟨hf, hvs⟩ := List.forall_mem_cons.1 hvs
    apply Keeps.bind hR (hargument _ _)
    intro location _
    apply Keeps.bind hR (Keeps.readAtom hR location)
    intro old hold
    apply Keeps.bind hR (hcall _ _ hf (List.forall_mem_cons.2 ⟨hold, hvs⟩))
    intro new hnew
    apply Keeps.bind hR (Keeps.writeAtom hR location hnew)
    intro _ _
    exact Keeps.pure hR hnew
  · exact Keeps.pure hR (hR.scalar _)

/-- Functions for coroutines. -/
theorem CoroutineOp.apply_keeps (op : CoroutineOp)
    (hop : R.value (.native (.primitive (.coroutine op)))) (fuel : Nat)
    (hvs : ∀ v ∈ vs, R.value v) :
  (op.apply call fuel vs).Keeps R R.value
  := by
  unfold CoroutineOp.apply
  dsimp only
  split
  · obtain ⟨hc, hvs⟩ := List.forall_mem_cons.1 hvs
    obtain ⟨hresolve, hvs⟩ := List.forall_mem_cons.1 hvs
    apply Keeps.bind hR (Argument.checkFunction_keeps hR _ _)
    intro _ _
    apply Keeps.bind hR (Argument.checkFunction_keeps hR _ _)
    intro _ _
    apply Keeps.bind hR (Argument.checkFunction_keeps hR _ _)
    intro _ _
    apply Keeps.bind hR (start_keeps hR hcall (hR.run hop) fuel hc hresolve
      (List.forall_mem_singleton.1 hvs))
    intro id _
    exact Keeps.pure hR (hR.execution id)
  · exact Argument.toThunk_keeps hR (List.forall_mem_singleton.1 hvs)
  · exact bounce_keeps hR hcall (hR.unwind hop) fuel
      (Keeps.pure hR (List.forall_mem_singleton.1 hvs))
  · obtain ⟨hv, hvs⟩ := List.forall_mem_cons.1 hvs
    exact hcall _ _ (List.forall_mem_cons.1 hvs).1 (List.forall_mem_singleton.2 hv)
  · obtain ⟨hv, hvs⟩ := List.forall_mem_cons.1 hvs
    obtain ⟨-, hvs⟩ := List.forall_mem_cons.1 hvs
    exact hcall _ _ (List.forall_mem_singleton.1 hvs) (List.forall_mem_singleton.2 hv)
  · apply Keeps.bind hR (Keeps.capture hR)
    intro context _
    split
    · exact stateOf_keeps hR _
    · exact Keeps.pure hR (hR.scalar _)
  · exact stateOf_keeps hR _
  · exact Keeps.raise hR _ _
  · exact Run.scopeViolation_keeps hR _ hvs
  · exact Keeps.pure hR (hR.scalar _)

/-- Primitives. -/
theorem Primitive.apply_keeps (p : Primitive) (hp : R.value (.native (.primitive p)))
    (fuel : Nat) (hvs : ∀ v ∈ vs, R.value v) :
  (p.apply call fuel vs).Keeps R R.value
  := by
  apply Keeps.bind hR (Keeps.checkArity hR _ _ _)
  intro _ _
  cases p with
  | arithmetic op => exact op.apply_keeps hR vs
  | comparison op => exact op.apply_keeps hR vs
  | atom op => exact op.apply_keeps hR hcall hvs
  | sequence op => exact op.apply_keeps hR hvs
  | condition op => exact op.apply_keeps hR hvs
  | coroutine op => exact op.apply_keeps hR hcall hp fuel hvs
  | text op => exact op.apply_keeps hR vs
  | test op => exact Keeps.pure hR (hR.scalar _)

/-- Functions of the virtual clock. -/
theorem TimerOp.apply_keeps (op : TimerOp) (hvs : ∀ v ∈ vs, R.value v) :
  (op.apply call vs).Keeps R R.value
  := by
  apply Keeps.bind hR (Keeps.checkArity hR _ _ _)
  intro _ _
  split
  · obtain ⟨-, hvs⟩ := List.forall_mem_cons.1 hvs
    obtain ⟨hv, hvs⟩ := List.forall_mem_cons.1 hvs
    exact schedule_keeps hR _ (List.forall_mem_cons.1 hvs).1 hv
  · apply Keeps.bind hR (Keeps.plainTextOf hR _)
    intro message _
    refine schedule_keeps hR _ (hvs _ ?_) (hR.condition_iff.2 (hR.scalar _))
    simp only [List.mem_cons, true_or, or_true]
  · apply Keeps.read
    intro m hm
    exact hcall _ _ (List.forall_mem_cons.1 hvs).1 (List.forall_mem_singleton.2 (hR.scalar _)) m hm
  · exact Keeps.pure hR (hR.scalar _)

namespace Continuation

/-- Continuing a suspended call. -/
theorem continueWith_keeps (fuel : Nat) {k : Value} (hc : c.Holds R.value) (hk : R.value k)
    (hv : R.value v) :
  (continueWith call fuel c k v).Keeps R R.value
  := by
  apply Keeps.bind hR (Keeps.changeStateIn hR _ _)
  intro _ _
  exact resume_keeps hR hcall fuel (.resumption hc hk hv)

/-- Continuing with a value. -/
theorem succeed_keeps (fuel : Nat) {k : Value} (hc : c.Holds R.value) (hk : R.value k)
    (hvs : ∀ v ∈ vs, R.value v) :
  (succeed call fuel c k vs).Keeps R R.value
  := by
  apply Keeps.bind hR (Keeps.checkArity hR _ _ _)
  intro _ _
  exact continueWith_keeps hR hcall fuel hc hk (hR.headD hvs)

/-- Continuing with an error. -/
theorem fail_keeps (fuel : Nat) {k : Value} (hc : c.Holds R.value) (hk : R.value k)
    (hvs : ∀ v ∈ vs, R.value v) :
  (fail call fuel c k vs).Keeps R R.value
  := by
  apply Keeps.bind hR (Keeps.checkArity hR _ _ _)
  intro _ _
  apply Keeps.bind hR (Keeps.thrown hR (hR.headD hvs))
  intro d hd
  exact continueWith_keeps hR hcall fuel hc hk (hR.condition_iff.2 hd)

/-- Delivering a result. -/
theorem settle_keeps (execution : Nat) (outcome : Outcome) (fuel : Nat) {target : Value}
    (ht : R.value target) (hvs : ∀ v ∈ vs, R.value v) :
  (settle call fuel execution outcome target vs).Keeps R R.value
  := by
  apply Keeps.bind hR (Keeps.checkArity hR _ _ _)
  intro _ _
  apply Keeps.bind hR (Keeps.finish hR _ _)
  intro _ _
  apply Keeps.bind hR (Keeps.capture hR)
  intro context hcontext
  exact resume_keeps hR hcall fuel (.delivery hcontext ht (hR.headD hvs))

end Continuation

end calling

end Skein
