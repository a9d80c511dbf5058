import Skein.Proofs.Metered.Native

/-!
# Evaluation with other counts of steps

When each single step is counted in the same way with other counts, so is every run: levels, native
functions, evaluation and calls follow the metered ones on a machine with other counts.
-/

namespace Skein

open Run Trampoline

/-- Steps that are counted with `count` are mirrored by those of the machine with other counts, as
long as a level is active inside of `least` others; and a level that is opened inside of them
starts without steps. -/
structure Recount.Suits (φ : Recount) (least : Nat) (count : Run Unit) : Prop where
  opened : ∀ around, least ≤ around → φ.steps around 0 = 0
  counted : count.Follows φ (least + 1) Run.step

/-- A way to call functions follows another one. -/
def Trampoline.Call.Follows (φ : Recount) (least : Nat) (call call' : Call) : Prop :=
  ∀ f vs, (call f vs).Follows φ least (call' f vs)

variable {φ : Recount} {least fuel : Nat} {count : Run Unit} {call call' : Call}

/-! ### The trampoline -/

namespace Trampoline

section levels

variable (hφ : φ.Suits least count) (hcall : call.Follows φ least call')
include hφ hcall

/-- Taking steps. -/
theorem force_follows (v : Value) :
  (forceBy count call fuel v).Follows φ (least + 1) (force call' fuel v)
  := by
  induction fuel generalizing v with
  | zero => exact Blind.exhausted.follows
  | succ fuel ih =>
    cases v with
    | thunk id f =>
      apply hφ.counted.bind
      intro _
      apply ((hcall f []).mono (Nat.le_succ least)).bind
      intro next
      exact ih next
    | _ => exact (Blind.pure _).follows

omit hφ in
/-- Doing some work. -/
theorem perform_follows (work : Work) :
  (perform call work).Follows φ least (perform call' work)
  := by
  cases work with
  | plain f => exact hcall f []
  | delivery snapshot f arg => exact (hcall f [arg]).entering snapshot
  | resumption snapshot k arg =>
    apply Follows.bind
    · apply Follows.entering
      exact .bindBlind (.changeStateIn _ _) fun _ => hcall k [arg]
    · intro next
      exact (inContext_blind snapshot next).follows

/-- Doing the work that waits. -/
theorem runWaiting_follows (first : Option (Condition Value)) :
  (runWaitingBy count call fuel first).Follows φ (least + 1) (runWaiting call' fuel first)
  := by
  induction fuel generalizing first with
  | zero => exact Blind.exhausted.follows
  | succ fuel ih =>
    apply Follows.bindBlind .dequeue
    rintro (_ | work)
    · exact (Blind.pure _).follows
    · apply Follows.bind
      · apply Follows.attempt
        apply hφ.counted.bind
        intro _
        apply ((perform_follows hcall work).mono (Nat.le_succ least)).bind
        intro v
        exact force_follows hφ hcall v
      · intro result
        rcases first with _ | c <;> rcases result with c' | v <;> exact ih _

/-- What a level comes to. -/
theorem inLevel_follows {start start' : Run Value} (hstart : start.Follows φ least start') :
  (inLevelBy count call fuel start).Follows φ (least + 1) (inLevel call' fuel start')
  := by
  apply Follows.bind
  · apply Follows.attempt
    apply (hstart.mono (Nat.le_succ least)).bind
    intro v
    exact force_follows hφ hcall v
  · intro result
    apply (runWaiting_follows hφ hcall none).bind
    intro late
    exact (Blind.pure _).follows

/-- A level of its own. -/
theorem bounce_follows {start start' : Run Value} (hstart : start.Follows φ least start') :
  (bounceBy count call fuel start).Follows φ least (bounce call' fuel start')
  := by
  intro m hm
  let opened : Machine := { m with levels := ⟨[], 0⟩ :: m.levels }
  have hlevel : φ.Mirrors opened (inLevelBy count call fuel start opened)
      (inLevel call' fuel start' (φ.machine opened)) :=
    inLevel_follows hφ hcall hstart opened (Nat.succ_le_succ hm)
  rw [bounce_eq, ← φ.machine_opened (hφ.opened _ hm)]
  change φ.Mirrors m ((inLevelBy count call fuel start >>= _) opened) _
  rw [bind_apply, bind_apply]
  revert hlevel
  generalize inLevelBy count call fuel start opened = r
  generalize hended : inLevel call' fuel start' (φ.machine opened) = r'
  rintro (⟨a, hl⟩ | ⟨c, hl⟩ | ⟨message, m'⟩ | ⟨m'⟩ | ⟨hmetered, m', r⟩)
  · rename_i m₁
    have hclosed : { φ.machine m₁ with levels := (φ.machine m₁).levels.tail } =
        φ.machine { m₁ with levels := m₁.levels.tail } := by
      change { m₁ with limit := φ.limit, levels := (φ.levels m₁.levels).tail } = _
      rw [← φ.levels_tail]
      rfl
    have hlength : m₁.levels.tail.length = m.levels.length := by
      rw [List.length_tail, hl]
      rfl
    change φ.Mirrors m (ofExcept a { m₁ with levels := m₁.levels.tail })
      (ofExcept a { φ.machine m₁ with levels := (φ.machine m₁).levels.tail })
    rw [hclosed]
    exact (Blind.ofExcept a φ _ (Nat.zero_le _)).after hlength
  · exact absurd hended (inLevel_ne_raised _ _ _ _ _ _)
  · exact .fault message m'
  · exact .exhausted m'
  · exact .overrun hmetered m' _

/-- Letting work wait, or doing it. -/
theorem resume_follows (work : Work) :
  (resumeBy count call fuel work).Follows φ least (resume call' fuel work)
  := by
  apply Follows.bindBlind (.enqueue work)
  rintro (_ | _)
  · exact bounce_follows hφ hcall (perform_follows hcall work)
  · exact (Blind.pure _).follows

omit hφ in
/-- What a coroutine does first that is started. -/
theorem startWith_follows (own : Nat) (coroutine success failure : Value) :
  (startWith call own coroutine success failure).Follows φ least
    (startWith call' own coroutine success failure)
  := by
  apply (hcall coroutine [success, failure]).attempt.bind
  rintro (d | v)
  · apply Follows.bindBlind (.executionState own)
    intro state
    split
    · exact (Blind.raiseCondition d).follows
    · exact hcall failure [.condition d]
  · exact (Blind.pure v).follows

/-- Starting a coroutine. -/
theorem start_follows (coroutine resolve reject : Value) :
  (startBy count call fuel coroutine resolve reject).Follows φ least
    (start call' fuel coroutine resolve reject)
  := by
  apply Follows.bindBlind .newExecution
  intro id
  apply Follows.bindBlind (.native _)
  intro success
  apply Follows.bindBlind (.native _)
  intro failure
  apply Follows.bindBlind .capture
  intro snapshot
  apply Follows.bind
  · apply Follows.entering
    exact bounce_follows hφ hcall (startWith_follows hcall id coroutine success failure)
  · exact fun _ => (Blind.pure id).follows

end levels

end Trampoline

/-! ### Native functions that call others -/

section natives

variable (hφ : φ.Suits least count) (hcall : call.Follows φ least call')

include hcall in
/-- Functions on atoms. -/
theorem AtomOp.apply_follows (op : AtomOp) (vs : List Value) :
  (op.apply call vs).Follows φ least (op.apply call' vs)
  := by
  have hargument : ∀ (name : String) (v : Value), (AtomOp.argument name v).Blind := by
    intro name v
    unfold AtomOp.argument
    split
    · exact .pure _
    · exact .raise _ _
  unfold AtomOp.apply
  dsimp only
  split
  · exact (Blind.newAtom _).follows
  · exact ((hargument _ _).bind fun location => .readAtom location).follows
  · exact ((hargument _ _).bind fun location =>
      (Blind.writeAtom location _).bind fun _ => .pure _).follows
  · apply Follows.bindBlind (hargument _ _)
    intro location
    apply Follows.bindBlind (.readAtom location)
    intro old
    apply (hcall _ _).bind
    intro new
    exact ((Blind.writeAtom location new).bind fun _ => .pure new).follows
  · exact (Blind.pure _).follows

include hφ hcall in
/-- Functions for coroutines. -/
theorem CoroutineOp.apply_follows (op : CoroutineOp) (vs : List Value) :
  (op.applyBy count call fuel vs).Follows φ least (op.apply call' fuel vs)
  := by
  unfold applyBy
  split
  · exact .bindBlind (Argument.checkFunction_blind _ _) fun _ =>
      .bindBlind (Argument.checkFunction_blind _ _) fun _ =>
      .bindBlind (Argument.checkFunction_blind _ _) fun _ =>
      (start_follows hφ hcall _ _ _).bind fun _ => (Blind.pure _).follows
  · exact bounce_follows hφ hcall (Blind.pure _).follows
  · rename_i hrun hunwind
    unfold CoroutineOp.apply
    dsimp only
    split
    · exact (hrun _ _ _ rfl rfl).elim
    · exact (Argument.toThunk_blind _).follows
    · exact (hunwind _ rfl rfl).elim
    · exact hcall _ _
    · exact hcall _ _
    · apply Follows.bindBlind .capture
      intro snapshot
      split
      · exact (stateOf_blind _).follows
      · exact (Blind.pure _).follows
    · exact (stateOf_blind _).follows
    · exact (Blind.raise _ _).follows
    · exact (Run.scopeViolation_blind _ _).follows
    · exact (Blind.pure _).follows

include hφ hcall in
/-- Primitives. -/
theorem Primitive.apply_follows (p : Primitive) (vs : List Value) :
  (p.applyBy count call fuel vs).Follows φ least (p.apply call' fuel vs)
  := by
  cases p with
  | coroutine op => exact .bindBlind (.checkArity _ _ _) fun _ => op.apply_follows hφ hcall vs
  | atom op => exact .bindBlind (.checkArity _ _ _) fun _ => op.apply_follows hcall vs
  | arithmetic op => exact .bindBlind (.checkArity _ _ _) fun _ => (op.apply_blind vs).follows
  | comparison op => exact .bindBlind (.checkArity _ _ _) fun _ => (op.apply_blind vs).follows
  | sequence op => exact .bindBlind (.checkArity _ _ _) fun _ => (op.apply_blind vs).follows
  | condition op => exact .bindBlind (.checkArity _ _ _) fun _ => (op.apply_blind vs).follows
  | text op => exact .bindBlind (.checkArity _ _ _) fun _ => (op.apply_blind vs).follows
  | test op => exact .bindBlind (.checkArity _ _ _) fun _ => (Blind.pure _).follows

include hcall in
/-- Functions of the virtual clock. -/
theorem TimerOp.apply_follows (op : TimerOp) (vs : List Value) :
  (op.apply call vs).Follows φ least (op.apply call' vs)
  := by
  apply Follows.bindBlind (.checkArity _ _ _)
  intro _
  split
  · exact (schedule_blind _ _ _).follows
  · exact ((Blind.plainTextOf _).bind fun _ => schedule_blind _ _ _).follows
  · exact fun m hm => hcall _ [.int (Int64.ofNat m.clock)] m hm
  · exact (Blind.pure _).follows

namespace Continuation

include hφ hcall

/-- Continuing a suspended call. -/
theorem continue_follows (snapshot : Context Value) (k v : Value) :
  (continueBy count call fuel snapshot k v).Follows φ least
    (continueWith call' fuel snapshot k v)
  := .bindBlind (.changeStateIn _ _) fun _ => resume_follows hφ hcall _

/-- Continuing with a value. -/
theorem succeed_follows (snapshot : Context Value) (k : Value) (vs : List Value) :
  (succeedBy count call fuel snapshot k vs).Follows φ least (succeed call' fuel snapshot k vs)
  := .bindBlind (.checkArity _ _ _) fun _ => continue_follows hφ hcall snapshot k _

/-- Continuing with an error. -/
theorem fail_follows (snapshot : Context Value) (k : Value) (vs : List Value) :
  (failBy count call fuel snapshot k vs).Follows φ least (fail call' fuel snapshot k vs)
  := .bindBlind (.checkArity _ _ _) fun _ => .bindBlind (.thrown _) fun _ =>
    continue_follows hφ hcall snapshot k _

/-- Delivering a result. -/
theorem settle_follows (execution : Nat) (outcome : Outcome) (target : Value)
    (vs : List Value) :
  (settleBy count call fuel execution outcome target vs).Follows φ least
    (settle call' fuel execution outcome target vs)
  := .bindBlind (.checkArity _ _ _) fun _ => .bindBlind (.finish _ _) fun _ =>
    .bindBlind .capture fun _ => resume_follows hφ hcall _

end Continuation

namespace Instrument

section scripts

include hφ hcall

/-- Resuming pieces of work. -/
theorem resumeAll_follows (works : List Script) :
  (resumeAllBy count call fuel works).Follows φ least (resumeAll call' fuel works)
  := by
  induction works with
  | nil => exact (Blind.pure ()).follows
  | cons work rest ih =>
    apply Follows.bindBlind (toValue_blind _)
    intro f
    apply (resume_follows hφ hcall _).attempt.bind
    intro result
    exact .bindBlind (.answer result) fun _ => .bindBlind (.record _) fun _ => ih

/-- Doing pieces of work in levels of their own. -/
theorem nestAll_follows (works : List Script) :
  (nestAllBy count call fuel works).Follows φ least (nestAll call' fuel works)
  := by
  induction works with
  | nil => exact (Blind.pure ()).follows
  | cons work rest ih =>
    apply Follows.bindBlind (toValue_blind _)
    intro f
    apply (bounce_follows hφ hcall (hcall f [])).attempt.bind
    intro result
    exact .bindBlind (.answer result) fun _ => .bindBlind (.record _) fun _ => ih

/-- Doing a piece of work. -/
theorem runScript_follows (work : Script) :
  (runScriptBy count call fuel work).Follows φ least (runScript call' fuel work)
  := by
  obtain ⟨label, resumed, nested, result⟩ := work
  apply Follows.bindBlind (.record _)
  intro _
  apply (resumeAll_follows hφ hcall resumed).bind
  intro _
  apply (nestAll_follows hφ hcall nested).bind
  intro _
  cases result with
  | thunk work => exact (pending_blind _).follows
  | unwind work =>
    exact .bindBlind (pending_blind _) fun v =>
      bounce_follows hφ hcall (Blind.pure v).follows
  | countdown n => exact (steps_blind n).follows
  | error kind message => exact (Blind.raise _ _).follows
  | value d => exact (Blind.pure _).follows

end scripts

include hcall in
/-- Calling the operation of the stage. -/
theorem operate_follows (vs : List Value) :
  (operate call vs).Follows φ least (operate call' vs)
  := by
  unfold operate
  split
  · apply Follows.bindBlind (request_blind _)
    intro delivery
    dsimp only
    split
    · exact ((postpone_blind _ _).bind fun _ => .pure _).follows
    · exact (hcall _ _).bind fun _ => (Blind.pure _).follows
  · exact (Blind.raise _ _).follows

include hφ hcall in
/-- Instruments. -/
theorem apply_follows (i : Instrument) (vs : List Value) :
  (i.applyBy count call fuel vs).Follows φ least (i.apply call' fuel vs)
  := by
  cases i with
  | perform work => exact runScript_follows hφ hcall work
  | operation => exact operate_follows hcall vs
  | record outcome =>
    exact ((Blind.shown _).bind fun _ => (Blind.record _).bind fun _ => .pure _).follows
  | probe x left =>
    apply Follows.bindBlind .capture
    intro snapshot
    have hseen :
        (if left = 0 then pure .nil else pending (.probe x (left - 1)) : Run Value).Blind := by
      split
      · exact .pure _
      · exact pending_blind _
    dsimp only
    split
    · exact ((Blind.shown _).bind fun _ => (Blind.record _).bind fun _ => hseen).follows
    · exact ((Blind.record _).bind fun _ => hseen).follows
  | countdown left => exact (steps_blind left).follows
  | answer => exact (answerWith_blind vs).follows
  | receive outcome => exact (receiveResult_blind outcome _).follows

end Instrument

include hφ hcall in
/-- Native functions. -/
theorem Native.apply_follows (f : Native Value) (vs : List Value) :
  (f.applyBy count call fuel vs).Follows φ least (f.apply call' fuel vs)
  := by
  cases f with
  | builtin b => exact (b.apply_blind vs).follows
  | primitive p => exact p.apply_follows hφ hcall vs
  | sentinel op => exact (Run.scopeViolation_blind op vs).follows
  | awaitContinuation id snapshot k => exact Continuation.succeed_follows hφ hcall snapshot k vs
  | awaitFailure id snapshot k => exact Continuation.fail_follows hφ hcall snapshot k vs
  | settle id execution outcome target =>
    exact Continuation.settle_follows hφ hcall execution outcome target vs
  | inContext id snapshot g =>
    exact ((hcall g []).entering snapshot).bind fun next =>
      (inContext_blind snapshot next).follows
  | timer op => exact op.apply_follows hcall vs
  | instrument id i => exact i.apply_follows hφ hcall vs

end natives

/-! ### Trees -/

/-- What a tree gives that is not in the tail of a loop. -/
theorem TailResult.toValue_blind (r : TailResult) :
  r.toValue.Blind
  := by
  cases r with
  | value v => exact .pure v
  | again vs => exact .raise _ _

namespace Eval

variable {eval eval' : Env → Expr → Run Value}

/-- Loops. -/
theorem repeatLoop_follows {body body' : Env → Run TailResult}
    (h : ∀ env, (body env).Follows φ least (body' env)) (enter : List Value → Env) (env : Env) :
  (repeatLoop body enter fuel env).Follows φ least (repeatLoop body' enter fuel env)
  := by
  induction fuel generalizing env with
  | zero => exact Blind.exhausted.follows
  | succ fuel ih =>
    apply (h env).bind
    rintro (v | vs)
    · exact (Blind.pure _).follows
    · exact ih _

section trees

variable (h : ∀ env e, (eval env e).Follows φ least (eval' env e))
include h

/-- Bindings. -/
theorem bindAll_follows (env : Env) (bindings : List (Symbol × Expr)) :
  (bindAll eval env bindings).Follows φ least (bindAll eval' env bindings)
  := by
  induction bindings generalizing env with
  | nil => exact (Blind.pure env).follows
  | cons b rest ih =>
    apply (h env b.2).bind
    intro v
    exact ih _

/-- Sequences. -/
theorem runAll_follows (env : Env) (es : List Expr) :
  (runAll eval env es).Follows φ least (runAll eval' env es)
  := by
  induction es with
  | nil => exact (Blind.pure ()).follows
  | cons e es ih =>
    apply (h env e).bind
    intro _
    exact ih

/-- Clauses. -/
theorem selectClause_follows (env : Env) (clauses : List (Clause Expr)) (c : Condition Value) :
  (selectClause eval env clauses c).Follows φ least (selectClause eval' env clauses c)
  := by
  unfold selectClause
  split
  · exact h _ _
  · exact (Blind.raiseCondition c).follows

/-- Protected bodies. -/
theorem protect_follows (env : Env) (body : Expr) (clauses : List (Clause Expr))
    (cleanup : Option Expr) :
  (protect eval env body clauses cleanup).Follows φ least
    (protect eval' env body clauses cleanup)
  := by
  apply Follows.bind
  · apply Follows.attempt
    apply (h env body).attempt.bind
    rintro (c | v)
    · exact selectClause_follows h env clauses c
    · exact (Blind.pure v).follows
  · intro result
    cases cleanup with
    | none => exact (Blind.ofExcept result).follows
    | some e => exact (h env e).bind fun _ => (Blind.ofExcept result).follows

end trees

end Eval

section calls

variable (hcall : call.Follows φ least call')
include hcall

/-- Evaluation in the tail of a loop. -/
theorem Expr.tail_follows (env : Env) (e : Expr) :
  (e.tail call fuel env).Follows φ least (e.tail call' fuel env)
  := by
  induction fuel generalizing env e with
  | zero => exact Blind.exhausted.follows
  | succ fuel ih =>
    have heval : ∀ (env : Env) (e : Expr),
        (do (← e.tail call fuel env).toValue : Run Value).Follows φ least
          (do (← e.tail call' fuel env).toValue) :=
      fun env e => (ih env e).bind fun r => r.toValue_blind.follows
    cases e with
    | call f args =>
      apply (heval env f).bind
      intro g
      apply (Follows.mapM (heval env) args).bind
      intro vs
      exact (hcall g vs).bind fun _ => (Blind.pure _).follows
    | cond test yes no =>
      apply (heval env test).bind
      intro v
      exact ih env _
    | seq es =>
      unfold Expr.tail
      dsimp only
      split
      · exact (Blind.pure _).follows
      · exact (Eval.runAll_follows heval env _).bind fun _ => ih env _
    | bind bindings body =>
      apply (Eval.bindAll_follows heval env bindings).bind
      intro inner
      exact ih inner body
    | loop bindings body =>
      apply (Eval.bindAll_follows heval env bindings).bind
      intro first
      exact Eval.repeatLoop_follows (fun env => ih env body) _ first
    | recur args => exact (Follows.mapM (heval env) args).bind fun _ => (Blind.pure _).follows
    | protect body clauses cleanup =>
      exact (Eval.protect_follows heval env body clauses cleanup).bind fun _ =>
        (Blind.pure _).follows
    | define x e =>
      apply (heval env e).bind
      intro v
      exact ((Blind.define x v).bind fun _ => .pure _).follows
    | literal d => exact (Blind.pure _).follows
    | builtin b => exact (Blind.pure _).follows
    | var x => exact ((Blind.lookup env x).bind fun _ => .pure _).follows
    | lambda name params body => exact (Blind.freshId.bind fun _ => .pure _).follows

/-- Evaluation. -/
theorem Expr.eval_follows (env : Env) (e : Expr) :
  (e.eval call fuel env).Follows φ least (e.eval call' fuel env)
  := (e.tail_follows hcall env).bind fun r => r.toValue_blind.follows

end calls

/-- Calls. -/
theorem Value.call_follows (hφ : φ.Suits least count) :
  Call.Follows φ least (Value.callBy count fuel) (Value.call fuel)
  := by
  induction fuel with
  | zero => exact fun _ _ => Blind.exhausted.follows
  | succ fuel ih =>
    intro f vs
    cases f with
    | native g => exact g.apply_follows hφ ih vs
    | closure id name params body env =>
      exact .bindBlind (.checkArity _ _ _) fun _ => body.eval_follows ih _
    | _ => exact ((Blind.textOf _).bind fun _ => .raise _ _).follows

end Skein
