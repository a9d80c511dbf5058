import Skein.Proofs.Simulation.Calls

/-!
# Awaited calls

The code of an awaited call asks the operation of the stage, and hands it the continuations
of the call as continuations that it may call later.  What the operation delivers in the
level of the run waits there; what it delivers later is left on the stage.  In both cases
the run goes on from what a direct run gives, in the context of the call.
-/

namespace Skein

open Coroutine

variable {own : Nat} {G : Aim} {U : Symbol → Prop} {W : World} {inner : Bool}
  {env : Env} {last last₁ : Option (Context Value)} {m m₁ m₂ m' : Machine}

namespace Machine

/-- The machine on which the operation of the stage has been asked. -/
def requested (m : Machine) (args : List Value) : Machine :=
  { m with stage := { m.stage with requests := args :: m.stage.requests } }

/-- The machine on which the two continuations of a suspended call have been made. -/
def suspending (m : Machine) : Machine :=
  { m.changed m.context .suspended with nextId := m.nextId + 2 }

/-- Nothing waits: neither work in the innermost level nor deliveries of the stage. -/
structure Idle (m : Machine) : Prop where
  level : ∃ steps levels, m.levels = ⟨[], steps⟩ :: levels
  pending : m.stage.pending = []

/-- The machine that is alike to one on which nothing waits. -/
theorem Alike.idle (h : Machine.Alike own 0 W m m') (hidle : m.Idle) :
  m'.Idle
  := by
  obtain ⟨⟨steps, levels, hl⟩, hp⟩ := hidle
  have hlevels := h.levels
  have hpending := h.stage.pending
  rw [hl] at hlevels
  rw [hp] at hpending
  constructor
  · generalize m'.levels = levels' at hlevels
    obtain ⟨_ | _⟩ := hlevels
    exact ⟨_, _, rfl⟩
  · exact List.forall₂_nil_left_iff.1 hpending

/-- Machines stay alike when alike things are asked on them. -/
theorem Alike.requested (h : Machine.Alike own 0 W m m') {vs vs' : List Value}
    (hvs : List.Forall₂ (Value.Alike W) vs vs') :
  Machine.Alike own 0 W (m.requested vs) (m'.requested vs')
  := { h with stage := { h.stage with requests := .cons hvs h.stage.requests } }

end Machine

/-! ### The operation -/

namespace Instrument

/-- Asking the operation gives what the stage delivers to this request. -/
theorem request_gives (args : List Value) (m : Machine) :
  (request args).Gives m (.ok (m.stage.deliveries m.stage.requests.length)) (m.requested args)
  := rfl

/-- What the stage answers. -/
theorem answerWith_eq {vs : List Value} {r : Ended Value} (h : (answerWith vs).Gives m r m₁) :
  ∃ id rest, vs = .native (.instrument id .operation) :: rest ∧
    r = (m.stage.deliveries m.stage.requests.length).result ∧
    m₁ = (m.requested rest).changed m.context .running
  := by
  unfold answerWith at h
  split at h
  · rename_i id rest
    have hanswer : (answerWith (.native (.instrument id .operation) :: rest)).Gives m
        (m.stage.deliveries m.stage.requests.length).result
        ((m.requested rest).changed m.context .running) := by
      apply (request_gives rest m).bind
      apply (m.requested rest).gives_capture.bind
      apply ((m.requested rest).gives_changeStateIn m.context .running).bind
      exact Run.gives_ofExcept _ _
    obtain ⟨rfl, rfl⟩ := h.unique hanswer
    exact ⟨id, rest, rfl, rfl, rfl⟩
  · cases r <;> cases h

/-- The operation takes its continuations from the end of its arguments. -/
theorem operate_eq (call : Trampoline.Call) (rest : List Value) (k f : Value) :
  operate call (rest ++ [k, f]) = (do
    let delivery ← request rest
    let (target, v) := addressee k f delivery.result
    if delivery.late then postpone target v
    else
      let _ ← call target [v]
    return .nil)
  := by
  have hreverse : (rest ++ [k, f]).reverse = f :: k :: rest.reverse := by
    rw [List.reverse_append]
    rfl
  unfold operate
  rw [hreverse]
  dsimp only
  rw [List.reverse_reverse]

/-- The operation calls a continuation with what is to be delivered at once. -/
theorem callEnds_now (id : Nat) {rest : List Value} {k f target arg v : Value}
    (haddressee : addressee k f (m.stage.deliveries m.stage.requests.length).result = (target, arg))
    (hlate : (m.stage.deliveries m.stage.requests.length).late = false)
    (hcall : target.CallEnds [arg] (m.requested rest) (.ok v) m₁) :
  (Value.native (.instrument id .operation)).CallEnds (rest ++ [k, f]) m (.ok .nil) m₁
  := by
  apply Expr.callEnds_native
  apply hcall.mono
  intro c _ hcall
  change (operate (Value.call c) (rest ++ [k, f])).Gives m (.ok .nil) m₁
  rw [operate_eq]
  apply (request_gives rest m).bind
  rw [haddressee, hlate]
  exact hcall.bind (Run.gives_pure _ _)

/-- The operation leaves what is to be delivered later on the stage. -/
theorem callEnds_late (id : Nat) (rest : List Value) {k f target arg : Value}
    (haddressee : addressee k f (m.stage.deliveries m.stage.requests.length).result = (target, arg))
    (hlate : (m.stage.deliveries m.stage.requests.length).late = true)
    (hp : m.stage.pending = []) :
  (Value.native (.instrument id .operation)).CallEnds (rest ++ [k, f]) m (.ok .nil)
    { m with stage := { (m.requested rest).stage with pending := [(target, arg)] } }
  := by
  apply Expr.callEnds_native
  apply Eventually.of_forall
  intro c _
  change (operate (Value.call c) (rest ++ [k, f])).Gives m (.ok .nil) _
  rw [operate_eq]
  apply (request_gives rest m).bind
  rw [haddressee, hlate]
  have hpending : (m.requested rest).stage.pending ++ [(target, arg)] = [(target, arg)] := by
    change m.stage.pending ++ _ = _
    rw [hp]
    rfl
  rw [← hpending]
  rfl

end Instrument

/-! ### Its continuations -/

/-- Making the continuation for a value. -/
theorem callEnds_awaitResume (k : Value) (m : Machine) :
  (Value.native (.builtin .awaitResume)).CallEnds [k] m
    (.ok (.native (.awaitContinuation m.nextId m.context k)))
    { m.changed m.context .suspended with nextId := m.nextId + 1 }
  := by
  apply Expr.callEnds_native
  apply Eventually.of_forall
  intro c f
  apply m.gives_capture.bind
  apply (m.gives_changeStateIn m.context .suspended).bind
  rfl

/-- Making the continuation for an error. -/
theorem callEnds_awaitReject (k : Value) (m : Machine) :
  (Value.native (.builtin .awaitReject)).CallEnds [k] m
    (.ok (.native (.awaitFailure m.nextId m.context k))) { m with nextId := m.nextId + 1 }
  := by
  apply Expr.callEnds_native
  exact .of_forall fun c f => rfl

/-- The two continuations that a suspended call hands to its operation. -/
theorem allEnd_continuations {success failure : Symbol} {k f : Value}
    (hk : List.lookup success env = some k) (hf : List.lookup failure env = some f)
    (m : Machine) :
  Expr.AllEnd env [.call (.builtin .awaitResume) [.var success],
      .call (.builtin .awaitReject) [.var failure]] m
    (.ok [.native (.awaitContinuation m.nextId m.context k),
      .native (.awaitFailure (m.nextId + 1) m.context f)]) m.suspending
  := by
  apply Expr.AllEnd.cons
  · exact Expr.ends_call (.cons (Expr.ends_builtin .awaitResume) (.cons (Expr.ends_var hk) .nil))
      (callEnds_awaitResume k m)
  · apply Expr.AllEnd.cons _ .nil
    exact Expr.ends_call (.cons (Expr.ends_builtin .awaitReject) (.cons (Expr.ends_var hf) .nil))
      (callEnds_awaitReject f _)

namespace Resumes

variable {target arg k : Value} {c : Context Value}

/-- What a continuation of a suspended call does when it is called. -/
theorem call_eq (h : Resumes target arg c k) (fuel : Nat) :
  Value.call (fuel + 1) target [arg] = Continuation.continueWith (Value.call fuel) fuel c k arg
  := by
  cases h <;> rfl

/-- In a level, the work of a continuation waits. -/
theorem enqueued (h : Resumes target arg c k) {steps : Nat} {levels : List Level}
    (hl : m.levels = ⟨[], steps⟩ :: levels) :
  target.CallEnds [arg] m (.ok .nil)
    { m.changed c .resumed with levels := ⟨[.resumption c k arg], steps⟩ :: levels }
  := by
  refine ⟨1, fun fuel _ hfuel _ => ?_⟩
  obtain ⟨fuel, rfl⟩ := Nat.exists_eq_add_of_le' hfuel
  rw [h.call_eq]
  apply Run.Gives.bind (m.gives_changeStateIn c .resumed)
  apply ((m.changed c .resumed).gives_enqueue hl _).bind
  exact Run.gives_pure _ _

end Resumes

/-- The machine in which a run goes on after a suspended call is alike to the one in which
a direct run has been given the answer. -/
theorem Machine.Alike.goOn (h : Machine.Alike own 0 W m m') {vs vs' : List Value}
    (hvs : List.Forall₂ (Value.Alike W) vs vs') (hidle : m.Idle) (heap : Heap) (stage : Stage)
    (hheap : heap.changed m'.context .running = m'.heap.changed m'.context .running)
    (hstage : stage = (m'.requested vs').stage) (steps : Nat) (levels : List Level) :
  Machine.Alike own 0 W ((m.requested vs).changed m.context .running)
    ({ m' with heap, nextId := m'.nextId + 2, levels := ⟨[], steps⟩ :: levels, stage }.goOn
      m'.context)
  := by
  obtain ⟨⟨steps₁, levels₁, hl⟩, -⟩ := hidle
  have hrunning : ExecutionState.running.isTerminal = false := rfl
  have halike := ((h.requested hvs).changed h.context hrunning).skip 2
  unfold Machine.goOn Machine.changed
  rw [hheap, hstage]
  refine { halike with levels := ?_ }
  change Level.Alike W 0 m.levels _
  rw [hl]
  exact .innermost .nil

/-- A result goes to one of the continuations of a suspended call, from which the run goes
on. -/
theorem Exits.Take.addressee {x : Exits} {r r' : Ended Value} {c c' : Context Value}
    (htake : x.Take own G W (r.map .value) (some c) m) (hr : Ended.Alike W r r')
    (hc : Context.Alike (Value.Alike W) c c') (i j : Nat) :
  ∃ target arg k,
    Instrument.addressee (.native (.awaitContinuation i c' x.success))
      (.native (.awaitFailure j c' x.failure)) r' = (target, arg) ∧ Resumes target arg c' k ∧
    ∀ m', Machine.Alike own 0 W m m' → k.Delivers G (some c') [arg] m'
  := by
  obtain hv | hd := hr
  · refine ⟨_, _, x.success, rfl, .value, fun m' hm => ?_⟩
    exact htake (le_refl W) hv (.some hc) hm
  · refine ⟨_, _, x.failure, rfl, .error, fun m' hm => ?_⟩
    exact htake (le_refl W) hd.value (.some hc) hm

/-- The operation of the stage delivers in the level of the run, or later, and the run goes
on from there. -/
theorem Value.Delivers.operation {id : Nat} {rest rest' : List Value} {x : Exits}
    {wrap : Option (Context Value)} (hm : Machine.Alike own 0 W m m')
    (hrest : List.Forall₂ (Value.Alike W) rest rest') (hidle : m.Idle)
    (htake : x.Take own G W ((m.stage.deliveries m.stage.requests.length).result.map .value)
      (some m.context) ((m.requested rest).changed m.context .running)) :
  (Value.native (.instrument id .operation)).Delivers G wrap
    (rest' ++ [.native (.awaitContinuation m'.nextId m'.context x.success),
      .native (.awaitFailure (m'.nextId + 1) m'.context x.failure)]) m'.suspending
  := by
  have hresult := hm.stage.deliveries m.stage.requests.length
  rw [hm.stage.requests.length_eq] at hresult htake
  obtain ⟨target, arg, k, haddressee, hresumes, hk⟩ :=
    htake.addressee hresult hm.context m'.nextId (m'.nextId + 1)
  obtain ⟨⟨steps, levels, hl⟩, hp⟩ := hm.idle hidle
  cases hlate : (m'.stage.deliveries m'.stage.requests.length).late with
  | false =>
    have hcall := Instrument.callEnds_now (m := m'.suspending) id haddressee hlate
      (hresumes.enqueued (m := m'.suspending.requested rest') hl)
    have hgo := hm.goOn hrest hidle
      ((m'.heap.changed m'.context .suspended).changed m'.context .resumed) _ ?_ rfl steps levels
    · obtain ⟨u, m₁, hends, hr⟩ := hk _ hgo
      exact ⟨.nil, _, hcall, .resumed hm.limit' rfl rfl hp hends hr⟩
    · rw [Heap.changed_changed, Heap.changed_changed] <;> rfl
  | true =>
    have hcall :=
      Instrument.callEnds_late (m := m'.suspending) id rest' haddressee hlate hp
    have hgo := hm.goOn hrest hidle (m'.heap.changed m'.context .suspended)
      { (m'.requested rest').stage with pending := [] } ?_ ?_ 0 []
    · obtain ⟨u, m₁, hends, hr⟩ := hk _ hgo
      exact ⟨.nil, _, hcall, .late rfl hl rfl hresumes hends hr⟩
    · rw [Heap.changed_changed]
      rfl
    · rw [← hp]
      rfl

namespace Expr.Followed

/-- An awaited call of the operation of the stage is followed. -/
theorem await {args : List Expr} {vs : List Value} {r : Ended Value}
    (hn : (Expr.call (.var "await") args).Needs inner)
    (hes : Expr.AllFollowed own G U inner args env last m (.ok vs) last₁ m₁) (hidle : m₁.Idle)
    (hr : (Instrument.answerWith vs).Gives m₁ r m₂) :
  (Expr.call (.var "await") args).Followed own G U inner env last m (r.map .value)
    (some m₁.context) m₂
  := by
  intro W m' env' wrap t t' s code x hs hfit hm hlast htake hcode
  rw [handOver_of_needs hs hn, lower] at hcode
  obtain ⟨id, rest, rfl, rfl, rfl⟩ := Instrument.answerWith_eq hr
  refine hes hs hfit hm hlast htake ?_ .nil (fun _ _ => Compiling.grows_ofExcept _) ?_ hcode
  · intro d hd
    cases hd
  apply Finishes.of_ok
  intro W' t t' s trees code env' wrap m' m₁' vs' hW hs hk hfit hcode hall hvs hm₁ hlast
  obtain _ | ⟨hop, hrest⟩ := hvs
  cases hop with | instrument _ hid
  obtain ⟨e, es, rfl⟩ := hall.exists_cons
  obtain ⟨hcode, -⟩ := Compiling.ofExcept_eq_ok_iff.1 hcode
  cases hcode
  obtain _ | ⟨he, hes⟩ := hall
  apply Expr.Reaches.completes
  apply (Value.Delivers.operation hm₁ hrest hidle (htake.mono hW)).call
  exact .cons he (hes.append
    (allEnd_continuations hfit.success.lookup hfit.failure.lookup m₁'))

/-- An awaited call whose arguments raise a condition is followed. -/
theorem await_error {args : List Expr} {d : Condition Value}
    (hn : (Expr.call (.var "await") args).Needs inner)
    (hes : Expr.AllFollowed own G U inner args env last m (.error d) last₁ m₁) :
  (Expr.call (.var "await") args).Followed own G U inner env last m (.error d) last₁ m₁
  := by
  intro W m' env' wrap t t' s code x hs hfit hm hlast htake hcode
  rw [handOver_of_needs hs hn, lower] at hcode
  refine hes hs hfit hm hlast htake ?_ .nil (fun _ _ => Compiling.grows_ofExcept _) ?_ hcode
  · rintro c ⟨⟩
    exact ⟨rfl, rfl, rfl⟩
  apply Finishes.of_error
  intro t t' s trees code env' m' m₁' d' hk hcode hall
  obtain ⟨e, es, rfl⟩ := hall.exists_cons_of_error
  obtain ⟨hcode, -⟩ := Compiling.ofExcept_eq_ok_iff.1 hcode
  cases hcode
  apply Expr.ends_call_error
  exact hall.append_error _

end Expr.Followed

end Skein
