import Skein.Proofs.Regime.Trampoline

/-!
# Evaluation respects regimes

Instruments respect a lawful regime, and so every native function does.  Evaluating a tree of
the regime and calling a value of it respect the regime by induction on the fuel.
-/

namespace Skein

open Run Trampoline

variable {R : Regime} (hR : R.Lawful) {call : Call} (hcall : call.Keeps R)
  {v : Value} {vs : List Value} {env : Env}

/-! ### Instruments -/

namespace Instrument

section making

include hR

/-- A thunk of an instrument. -/
theorem pending_keeps {i : Instrument} (hi : ∀ id, R.value (.native (.instrument id i))) :
  (pending i).Keeps R R.value
  := by
  apply Keeps.bind hR (Keeps.native hR hi)
  intro f hf
  exact Keeps.thunk hR hf

/-- A chain of thunks. -/
theorem steps_keeps (n : Nat) :
  (steps n).Keeps R R.value
  := by
  cases n with
  | zero => exact Keeps.pure hR (hR.scalar _)
  | succ n => exact pending_keeps hR fun id => hR.instrument id rfl

/-- Asking the stage what is delivered. -/
theorem request_keeps (vs : List Value) :
  (request vs).Keeps R fun delivery => Ended.Holds R.value R.value delivery.result
  := Keeps.modifyGet fun _ hm =>
    ⟨hm.deliveries _, { hm with }, hR.inert (.of_eq rfl rfl rfl rfl rfl (.of_eq rfl rfl rfl))⟩

/-- Leaving a delivery for later. -/
theorem postpone_keeps {k : Value} (hk : R.value k) (hv : R.value v) :
  (postpone k v).Keeps R fun _ => True
  := by
  apply Keeps.change
  intro m hm
  refine ⟨{ hm with pending := ?_ }, hR.inert (.of_eq rfl rfl rfl rfl rfl (.of_eq rfl rfl rfl))⟩
  intro p hp
  rcases List.mem_append.1 hp with hp | hp
  · exact hm.pending p hp
  · obtain rfl := List.mem_singleton.1 hp
    exact ⟨hk, hv⟩

/-- Taking a delivery that is late. -/
theorem takePending_keeps :
  takePending.Keeps R fun next => ∀ p ∈ next, R.value p.1 ∧ R.value p.2
  := by
  apply Keeps.modifyGet
  intro m hm
  cases hp : m.stage.pending with
  | nil =>
    exact ⟨fun p h => absurd h (Option.not_mem_none p), hm, hR.refl m⟩
  | cons next rest =>
    have hpending := hm.pending
    rw [hp] at hpending
    obtain ⟨hnext, hrest⟩ := List.forall_mem_cons.1 hpending
    refine ⟨?_, { hm with pending := hrest }, hR.inert (.of_eq rfl rfl rfl rfl rfl (.of_eq rfl rfl rfl))⟩
    rintro p ⟨⟩
    exact hnext

/-- Answering for the operation of the stage. -/
theorem answerWith_keeps (vs : List Value) :
  (answerWith vs).Keeps R R.value
  := by
  unfold answerWith
  split
  · apply Keeps.bind hR (request_keeps hR _)
    intro delivery hdelivery
    apply Keeps.bind hR (Keeps.capture hR)
    intro c _
    apply Keeps.bind hR (Keeps.changeStateIn hR c _)
    intro _ _
    exact Keeps.ofExcept hR hdelivery
  · exact Keeps.fault (hR.stops _ (by decide))

/-- Receiving a result. -/
theorem receiveResult_keeps (outcome : Outcome) (v : Value) :
  (receiveResult outcome v).Keeps R R.value
  := by
  refine Keeps.bind hR (?_ : Run.Keeps R (fun _ => True) _) ?_
  · exact Keeps.change fun _ hm => ⟨{ hm with }, hR.inert (.of_eq rfl rfl rfl rfl rfl (.of_eq rfl rfl rfl))⟩
  · intro _ _
    exact Keeps.pure hR (hR.scalar _)

/-- The end that is delivered, and to whom. -/
theorem addressee_holds {k f : Value} {r : Except (Condition Value) Value} (hk : R.value k)
    (hf : R.value f) (hr : Ended.Holds R.value R.value r) :
  R.value (addressee k f r).1 ∧ R.value (addressee k f r).2
  := by
  cases hr with
  | ok hv => exact ⟨hk, hv⟩
  | error hd => exact ⟨hf, hR.condition_iff.2 hd⟩

end making

include hR hcall

/-- Resuming pieces of work, where scripts may be done. -/
theorem resumeAll_keeps (hnests : R.nests) (fuel : Nat) (works : List Script) :
  (resumeAll call fuel works).Keeps R fun _ => True
  := by
  induction works with
  | nil => exact Keeps.pure hR trivial
  | cons work rest ih =>
    apply Keeps.bind hR (Keeps.native hR fun _ => hR.script_iff.2 hnests)
    intro f hf
    apply Keeps.bind hR (resume_keeps hR hcall fuel (.plain hf)).attempt
    intro result _
    apply Keeps.bind hR (Keeps.answer hR result)
    intro line _
    apply Keeps.bind hR (Keeps.record hR _)
    intro _ _
    exact ih

/-- Doing pieces of work in levels of their own, where scripts may be done. -/
theorem nestAll_keeps (hnests : R.nests) (fuel : Nat) (works : List Script) :
  (nestAll call fuel works).Keeps R fun _ => True
  := by
  induction works with
  | nil => exact Keeps.pure hR trivial
  | cons work rest ih =>
    apply Keeps.bind hR (Keeps.native hR fun _ => hR.script_iff.2 hnests)
    intro f hf
    have hwork := hcall f [] hf fun _ h => absurd h List.not_mem_nil
    apply Keeps.bind hR (bounce_keeps hR hcall hnests fuel hwork).attempt
    intro result _
    apply Keeps.bind hR (Keeps.answer hR result)
    intro line _
    apply Keeps.bind hR (Keeps.record hR _)
    intro _ _
    exact ih

/-- Doing a piece of work, where scripts may be done. -/
theorem runScript_keeps (hnests : R.nests) (fuel : Nat) (work : Script) :
  (runScript call fuel work).Keeps R R.value
  := by
  obtain ⟨label, resumed, nested, result⟩ := work
  have hpending : ∀ work, (pending (.perform work)).Keeps R R.value := fun work =>
    pending_keeps hR fun _ => hR.script_iff.2 hnests
  apply Keeps.bind hR (Keeps.record hR _)
  intro _ _
  apply Keeps.bind hR (resumeAll_keeps hR hcall hnests fuel resumed)
  intro _ _
  apply Keeps.bind hR (nestAll_keeps hR hcall hnests fuel nested)
  intro _ _
  cases result with
  | thunk work => exact hpending work
  | unwind work =>
    apply Keeps.bind hR (hpending work)
    intro v hv
    exact bounce_keeps hR hcall hnests fuel (Keeps.pure hR hv)
  | countdown n => exact steps_keeps hR n
  | error kind message => exact Keeps.raise hR _ _
  | value d => exact Keeps.pure hR (hR.ofDatum d)

/-- Calling the operation of the stage. -/
theorem operate_keeps (hvs : ∀ v ∈ vs, R.value v) :
  (operate call vs).Keeps R R.value
  := by
  unfold operate
  split
  · rename_i f k rest hreverse
    have hrev : ∀ v ∈ f :: k :: rest, R.value v := fun v hv =>
      hvs v (List.mem_reverse.1 (hreverse ▸ hv))
    obtain ⟨hf, hrev⟩ := List.forall_mem_cons.1 hrev
    obtain ⟨hk, -⟩ := List.forall_mem_cons.1 hrev
    apply Keeps.bind hR (request_keeps hR _)
    intro delivery hdelivery
    obtain ⟨htarget, hv⟩ := addressee_holds hR hk hf hdelivery
    dsimp only
    split
    · apply Keeps.bind hR (postpone_keeps hR htarget hv)
      intro _ _
      exact Keeps.pure hR (hR.scalar _)
    · apply Keeps.bind hR (hcall _ _ htarget (List.forall_mem_singleton.2 hv))
      intro _ _
      exact Keeps.pure hR (hR.scalar _)
  · exact Keeps.raise hR _ _

/-- Instruments. -/
theorem apply_keeps {id : Nat} (i : Instrument) (hi : R.value (.native (.instrument id i)))
    (fuel : Nat) (hvs : ∀ v ∈ vs, R.value v) :
  (i.apply call fuel vs).Keeps R R.value
  := by
  cases i with
  | record outcome =>
    apply Keeps.bind hR (Keeps.shown hR _)
    intro s _
    apply Keeps.bind hR (Keeps.record hR _)
    intro _ _
    exact Keeps.pure hR (hR.scalar _)
  | probe x left =>
    have hrest : (if left = 0 then return .nil
        else pending (.probe x (left - 1)) : Run Value).Keeps R R.value := by
      split
      · exact Keeps.pure hR (hR.scalar _)
      · exact pending_keeps hR fun id => hR.instrument id rfl
    apply Keeps.bind hR (Keeps.capture hR)
    intro c _
    cases h : c.lookup? x with
    | none =>
      apply Keeps.bind hR (Keeps.record hR _)
      intro _ _
      exact hrest
    | some v =>
      apply Keeps.bind hR (Keeps.shown hR v)
      intro s _
      apply Keeps.bind hR (Keeps.record hR _)
      intro _ _
      exact hrest
  | countdown left => exact steps_keeps hR left
  | perform work => exact runScript_keeps hR hcall (hR.script_iff.1 hi) fuel work
  | operation => exact operate_keeps hR hcall hvs
  | answer => exact answerWith_keeps hR vs
  | receive outcome => exact receiveResult_keeps hR outcome _

/-- Making the deliveries that are late. -/
theorem deliverAll_keeps (fuel : Nat) :
  (deliverAll call fuel).Keeps R fun _ => True
  := by
  induction fuel with
  | zero => exact Keeps.exhausted
  | succ fuel ih =>
    apply Keeps.bind hR (takePending_keeps hR)
    rintro (_ | ⟨k, v⟩) hnext
    · exact Keeps.pure hR trivial
    · obtain ⟨hk, hv⟩ := hnext _ rfl
      apply Keeps.bind hR
      · exact Keeps.outside hR (hcall k [v] hk (List.forall_mem_singleton.2 hv))
      · intro _ _
        exact ih

end Instrument

include hR hcall in
/-- Native functions. -/
theorem Native.apply_keeps (f : Native Value) (hf : R.value (.native f)) (fuel : Nat)
    (hvs : ∀ v ∈ vs, R.value v) :
  (f.apply call fuel vs).Keeps R R.value
  := by
  cases f with
  | builtin b => exact b.apply_keeps hR (hR.builtin hf) hvs
  | primitive p => exact p.apply_keeps hR hcall hf fuel hvs
  | sentinel op => exact Run.scopeViolation_keeps hR op hvs
  | awaitContinuation id c k =>
    obtain ⟨hc, hk⟩ := hR.awaitContinuation_iff.1 hf
    exact Continuation.succeed_keeps hR hcall fuel hc hk hvs
  | awaitFailure id c k =>
    obtain ⟨hc, hk⟩ := hR.awaitFailure_iff.1 hf
    exact Continuation.fail_keeps hR hcall fuel hc hk hvs
  | settle id execution outcome target =>
    exact Continuation.settle_keeps hR hcall execution outcome fuel (hR.settle_iff.1 hf) hvs
  | inContext id c g =>
    obtain ⟨hc, hg⟩ := hR.inContext_iff.1 hf
    apply Keeps.bind hR
    · exact Keeps.entering hR hc (hcall g [] hg fun _ h => absurd h List.not_mem_nil)
    · intro next hnext
      exact inContext_keeps hR hc hnext
  | timer op => exact op.apply_keeps hR hcall hvs
  | instrument id i => exact i.apply_keeps hR hcall hf fuel hvs

/-! ### Evaluation -/

/-- Evaluating a tree respects a regime. -/
def Regime.Evaluates (R : Regime) (eval : Env → Expr → Run Value) (e : Expr) : Prop :=
  ∀ env : Env, env.Obeys R → (eval env e).Keeps R R.value

/-- One more binding of a value of the regime. -/
theorem Env.Obeys.cons (henv : env.Obeys R) (x : Symbol) (hv : R.value v) :
  Env.Obeys R ((x, v) :: env)
  := List.forall_mem_cons.2 ⟨hv, henv⟩

/-- More bindings of values of the regime. -/
theorem Env.Obeys.extend (henv : env.Obeys R) (names : List Symbol) (hvs : ∀ v ∈ vs, R.value v) :
  (env.extend names vs).Obeys R
  := by
  intro b hb
  rcases List.mem_append.1 hb with hb | hb
  · exact hvs _ (List.of_mem_zip (List.mem_reverse.1 hb)).2
  · exact henv b hb

namespace Eval

include hR

variable {eval : Env → Expr → Run Value}

/-- Loops. -/
theorem repeatLoop_keeps {body : Env → Run TailResult}
    (hbody : ∀ env : Env, env.Obeys R → (body env).Keeps R (TailResult.Holds R.value))
    {enter : List Value → Env} (henter : ∀ vs, (∀ v ∈ vs, R.value v) → (enter vs).Obeys R)
    (fuel : Nat) (henv : env.Obeys R) :
  (repeatLoop body enter fuel env).Keeps R (TailResult.Holds R.value)
  := by
  induction fuel generalizing env with
  | zero => exact Keeps.exhausted
  | succ fuel ih =>
    apply Keeps.bind hR (hbody env henv)
    rintro _ (hv | hvs)
    · exact Keeps.pure hR (.value hv)
    · exact ih (henter _ hvs)

/-- The initial values of bindings. -/
theorem bindAll_keeps {bs : List (Symbol × Expr)} (heval : ∀ b ∈ bs, R.Evaluates eval b.2)
    (henv : env.Obeys R) :
  (bindAll eval env bs).Keeps R (Env.Obeys R)
  := by
  induction bs generalizing env with
  | nil => exact Keeps.pure hR henv
  | cons b bs ih =>
    obtain ⟨hb, hbs⟩ := List.forall_mem_cons.1 heval
    apply Keeps.bind hR (hb env henv)
    intro v hv
    exact ih hbs (henv.cons b.1 hv)

/-- Trees for their effects. -/
theorem runAll_keeps {es : List Expr} (heval : ∀ e ∈ es, R.Evaluates eval e)
    (henv : env.Obeys R) :
  (runAll eval env es).Keeps R fun _ => True
  := by
  induction es with
  | nil => exact Keeps.pure hR trivial
  | cons e es ih =>
    obtain ⟨he, hes⟩ := List.forall_mem_cons.1 heval
    apply Keeps.bind hR (he env henv)
    intro _ _
    exact ih hes

/-- Protected bodies with their clauses. -/
theorem clauses_keeps {body : Expr} {clauses : List (Clause Expr)}
    (hbody : R.Evaluates eval body) (hclauses : ∀ c ∈ clauses, R.Evaluates eval c.body)
    (henv : env.Obeys R) :
  (Run.attempt do
    match ← Run.attempt (eval env body) with
    | .ok v => return v
    | .error c => selectClause eval env clauses c).Keeps R (Ended.Holds R.value R.value)
  := by
  apply Keeps.attempt
  apply Keeps.bind hR (hbody env henv).attempt
  rintro _ (⟨hv⟩ | ⟨hd⟩)
  · exact Keeps.pure hR hv
  · dsimp only
    unfold selectClause
    split
    · rename_i clause hclause
      exact hclauses clause (List.mem_of_find?_eq_some hclause) _
        (henv.cons _ (hR.condition_iff.2 hd))
    · exact Keeps.raiseCondition hR hd

/-- Protected bodies. -/
theorem protect_keeps {body : Expr} {clauses : List (Clause Expr)} {cleanup : Option Expr}
    (hbody : R.Evaluates eval body) (hclauses : ∀ c ∈ clauses, R.Evaluates eval c.body)
    (hcleanup : ∀ e ∈ cleanup, R.Evaluates eval e) (henv : env.Obeys R) :
  (protect eval env body clauses cleanup).Keeps R R.value
  := by
  apply Keeps.bind hR (clauses_keeps hR hbody hclauses henv)
  intro result hresult
  cases cleanup with
  | none => exact Keeps.ofExcept hR hresult
  | some e =>
    apply Keeps.bind hR (hcleanup e rfl env henv)
    intro _ _
    exact Keeps.ofExcept hR hresult

end Eval

include hR in
/-- The value of a tree that is not in the tail of a loop. -/
theorem TailResult.toValue_keeps {r : TailResult} (h : r.Holds R.value) :
  r.toValue.Keeps R R.value
  := by
  cases h with
  | value hv => exact Keeps.pure hR hv
  | again hvs => exact Keeps.raise hR _ _

include hR hcall in
/-- Evaluation of a tree that is made of trees of the regime, when evaluation with less fuel
respects the regime. -/
theorem Expr.tail_keeps_of_children {fuel : Nat} {e : Expr} (he : R.code e)
    (hchildren : ∀ c ∈ e.children, R.code c)
    (ih : ∀ (env : Env) (e : Expr), R.code e → env.Obeys R →
      (e.tail call fuel env).Keeps R (TailResult.Holds R.value)) (henv : env.Obeys R) :
  (e.tail call (fuel + 1) env).Keeps R (TailResult.Holds R.value)
  := by
  have heval : ∀ e, R.code e →
      R.Evaluates (fun env e => do (← e.tail call fuel env).toValue) e := by
    intro e he env henv
    apply Keeps.bind hR (ih env e he henv)
    intro r hr
    exact TailResult.toValue_keeps hR hr
  cases e with
  | literal d => exact Keeps.pure hR (.value (hR.ofDatum d))
  | builtin b => exact Keeps.pure hR (.value (hR.held he))
  | var x =>
    apply Keeps.bind hR (Keeps.lookup hR henv (hR.var he))
    intro v hv
    exact Keeps.pure hR (.value hv)
  | lambda name params body =>
    apply Keeps.bind hR (Keeps.freshId hR)
    intro id _
    exact Keeps.pure hR (.value (hR.closure_iff.2 ⟨hR.lambda he, henv⟩))
  | call f args =>
    obtain ⟨hf, hargs⟩ := List.forall_mem_cons.1 hchildren
    apply Keeps.bind hR (heval f hf env henv)
    intro g hg
    apply Keeps.bind hR (Keeps.mapM hR fun a ha => heval a (hargs a ha) env henv)
    intro vs hvs
    apply Keeps.bind hR (hcall g vs hg hvs)
    intro v hv
    exact Keeps.pure hR (.value hv)
  | cond test yes no =>
    apply Keeps.bind hR (heval test (hchildren test List.mem_cons_self) env henv)
    intro v _
    apply ih env _ _ henv
    split
    · exact hchildren yes (by simp only [children, List.mem_cons, true_or, or_true])
    · exact hchildren no (by simp only [children, List.mem_cons, true_or, or_true])
  | seq es =>
    unfold Expr.tail
    dsimp only
    split
    · exact Keeps.pure hR (.value (hR.scalar _))
    · rename_i last hlast
      apply Keeps.bind hR
      · exact Eval.runAll_keeps hR
          (fun e he => heval e (hchildren e ((List.dropLast_sublist es).subset he))) henv
      · intro _ _
        exact ih env last (hchildren last (List.mem_of_getLast? hlast)) henv
  | bind bs body =>
    have hbs : ∀ b ∈ bs, R.code b.2 := fun b hb =>
      hchildren b.2 (List.mem_append_left _ (List.mem_map_of_mem hb))
    apply Keeps.bind hR (Eval.bindAll_keeps hR (fun b hb => heval b.2 (hbs b hb)) henv)
    intro inner hinner
    exact ih inner body (hchildren body (List.mem_append_right _ List.mem_cons_self)) hinner
  | loop bs body =>
    have hbs : ∀ b ∈ bs, R.code b.2 := fun b hb =>
      hchildren b.2 (List.mem_append_left _ (List.mem_map_of_mem hb))
    have hbody : R.code body := hchildren body (List.mem_append_right _ List.mem_cons_self)
    apply Keeps.bind hR (Eval.bindAll_keeps hR (fun b hb => heval b.2 (hbs b hb)) henv)
    intro first hfirst
    exact Eval.repeatLoop_keeps hR (fun env henv => ih env body hbody henv)
      (fun vs hvs => henv.extend _ hvs) fuel hfirst
  | recur args =>
    apply Keeps.bind hR (Keeps.mapM hR fun a ha => heval a (hchildren a ha) env henv)
    intro vs hvs
    exact Keeps.pure hR (.again hvs)
  | protect body clauses cleanup =>
    apply Keeps.bind hR
    · apply Eval.protect_keeps hR (heval body _) _ _ henv
      · exact hchildren body (by simp only [children, List.cons_append, List.mem_cons, true_or])
      · intro c hc
        apply heval c.body
        exact hchildren c.body (List.mem_append_left _ (List.mem_cons_of_mem _
          (List.mem_map_of_mem hc)))
      · intro e he
        apply heval e
        exact hchildren e (List.mem_append_right _ (Option.mem_toList.2 he))
    · intro v hv
      exact Keeps.pure hR (.value hv)
  | define x e =>
    apply Keeps.bind hR (heval e (hchildren e List.mem_cons_self) env henv)
    intro v hv
    apply Keeps.bind hR (Keeps.define hR x hv)
    intro _ _
    exact Keeps.pure hR (.value hv)

section evaluating

variable (hcode : R.Evaluable) (hruns : call.RunsBuiltins)
include hR hcode hcall hruns

/-- Evaluation in the tail of a loop. -/
theorem Expr.tail_keeps (fuel : Nat) {e : Expr} (he : R.code e) (henv : env.Obeys R) :
  (e.tail call fuel env).Keeps R (TailResult.Holds R.value)
  := by
  induction fuel using Nat.strongRecOn generalizing env e with
  | ind fuel ih =>
    cases fuel with
    | zero => exact Keeps.exhausted
    | succ fuel =>
      have hless : ∀ k ≤ fuel, ∀ (env : Env) (e : Expr), R.code e → env.Obeys R →
          (e.tail call k env).Keeps R (TailResult.Holds R.value) :=
        fun k hk env e he henv => ih k (Nat.lt_succ_of_le hk) he henv
      rcases hcode e he with hchildren | hspecial
      · exact Expr.tail_keeps_of_children hR hcall he hchildren (hless fuel (Nat.le_refl _)) henv
      · exact hspecial call fuel hcall hruns hless env henv

/-- Evaluation. -/
theorem Expr.eval_keeps (fuel : Nat) {e : Expr} (he : R.code e) (henv : env.Obeys R) :
  (e.eval call fuel env).Keeps R R.value
  := by
  apply Keeps.bind hR (Expr.tail_keeps hR hcall hcode hruns fuel he henv)
  intro r hr
  exact TailResult.toValue_keeps hR hr

/-- Calling a function literal whose body may be evaluated. -/
theorem Eval.enterClosure_keeps (fuel : Nat) {id : Nat} {name : Option Symbol}
    {params : List Symbol} {body : Expr} (hbody : R.code body)
    (hf : R.value (.closure id name params body env)) (hvs : ∀ v ∈ vs, R.value v) :
  (Eval.enterClosure call fuel (.closure id name params body env) name params body env vs).Keeps R
    R.value
  := by
  obtain ⟨-, henv⟩ := hR.closure_iff.1 hf
  apply Keeps.bind hR (Keeps.checkArity hR _ _ _)
  intro _ _
  apply Expr.eval_keeps hR hcall hcode hruns fuel hbody
  cases name with
  | none => exact Env.Obeys.extend henv params hvs
  | some x => exact Env.Obeys.extend (Env.Obeys.cons henv x hf) params hvs

end evaluating

include hR in
/-- Calling a value that is no function. -/
theorem Value.refuse_keeps (v : Value) :
  (do Run.raise .typeError ("cannot call a " ++ v.typeName ++ ": " ++ (← Run.textOf v)) :
    Run Value).Keeps R R.value
  := by
  apply Keeps.bind hR (Keeps.textOf hR _)
  intro text _
  exact Keeps.raise hR _ _

/-- Calls run the functions that trees hold. -/
theorem Value.call_runsBuiltins (fuel : Nat) :
  Call.RunsBuiltins (Value.call fuel)
  := by
  intro b vs
  cases fuel with
  | zero => exact .inr rfl
  | succ fuel => exact .inl rfl

include hR in
/-- Calls of the values of a regime respect it, where the bodies of its function literals may
be evaluated. -/
theorem Value.call_keeps (hcode : R.Evaluable) (hbody : ∀ e, R.body e → R.code e) (fuel : Nat) :
  Call.Keeps R (Value.call fuel)
  := by
  induction fuel with
  | zero =>
    intro f vs _ _
    exact Keeps.exhausted
  | succ fuel ih =>
    intro f vs hf hvs
    cases f with
    | native g => exact g.apply_keeps hR ih hf fuel hvs
    | closure id name params body env =>
      exact Eval.enterClosure_keeps hR ih hcode (Value.call_runsBuiltins fuel) fuel
        (hbody body (hR.closure_iff.1 hf).1) hf hvs
    | _ => exact Value.refuse_keeps hR _

end Skein
