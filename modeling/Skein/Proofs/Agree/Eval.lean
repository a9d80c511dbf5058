import Skein.Eval
import Skein.Proofs.Agree.Trampoline

/-!
# Evaluation agrees

Instruments agree, and with them all native functions.  A tree that is evaluated in linked
scopes, and a function that is called with linked arguments, agree: a program cannot tell
linked machines apart.
-/

namespace Skein

open Run Trampoline

variable {L : Likeness} {n : Nat} {W : Link}

/-! ### Instruments -/

namespace Instrument

/-- Instruments as functions agree. -/
theorem toValue_agree (i : Instrument) :
  Agree L n W Value.Linked i.toValue i.toValue
  := Agree.native fun _ _ _ _ hij => .instrument i hij

/-- Thunks of instruments agree. -/
theorem pending_agree (i : Instrument) :
  Agree L n W Value.Linked (pending i) (pending i)
  := by
  apply Agree.bind (toValue_agree i)
  intro W₁ f f' hW₁ hf
  exact Agree.thunk hf

/-- Chains of thunks agree. -/
theorem steps_agree (k : Nat) :
  Agree L n W Value.Linked (steps k) (steps k)
  := by
  cases k with
  | zero => exact Agree.pure (.scalar _)
  | succ k => exact pending_agree _

/-- Noting a request agrees: linked things are delivered. -/
theorem request_agree {vs vs' : List Value} (hvs : List.Forall₂ (Value.Linked W) vs vs') :
  Agree L n W
    (fun W d d' => Ended.Linked W d.result d'.result ∧ d.late = d'.late)
    (request vs) (request vs')
  := by
  apply Agree.modifyGet
  intro m m' hm
  refine ⟨W, le_refl W, ?_, ?_⟩
  · dsimp only
    rw [hm.stage.requests.length_eq]
    exact ⟨hm.stage.deliveries _, hm.stage.late _⟩
  · exact { hm with stage := { hm.stage with requests := .cons hvs hm.stage.requests } }

/-- Leaving a continuation to be called later agrees. -/
theorem postpone_agree {k k' v v' : Value} (hk : Value.Linked W k k') (hv : Value.Linked W v v') :
  Agree L n W Same (postpone k v) (postpone k' v')
  := by
  apply Agree.change
  intro m m' hm
  have hpending : Pending.Rel (Value.Linked W) (k, v) (k', v') := ⟨hk, hv⟩
  exact { hm with stage :=
    { hm.stage with pending := List.rel_append hm.stage.pending (.cons hpending .nil) } }

/-- Alike results go to linked continuations. -/
theorem addressee_linked {k k' f f' : Value} (hk : Value.Linked W k k') (hf : Value.Linked W f f')
    {r r' : Except (Condition Value) Value} (hr : Ended.Linked W r r') :
  Pending.Rel (Value.Linked W) (addressee k f r) (addressee k' f' r')
  := by
  cases hr with
  | ok hv => exact ⟨hk, hv⟩
  | error hc =>
    obtain ⟨hd⟩ := hc
    exact ⟨hf, .condition hd⟩

/-- What the stage answers agrees. -/
theorem answerWith_agree {vs vs' : List Value} (hvs : List.Forall₂ (Value.Linked W) vs vs') :
  Agree L n W Value.Linked (answerWith vs) (answerWith vs')
  := by
  rcases hvs with _ | ⟨hv, hrest⟩
  · exact Agree.fault _
  · cases hv with
    | instrument i hid =>
      cases i with
      | operation =>
        apply Agree.bind (request_agree hrest)
        rintro W₁ d d' hW₁ ⟨hr, -⟩
        apply Agree.bind Agree.capture
        intro W₂ c c' hW₂ hc
        apply Agree.bind (Agree.changeStateIn hc rfl)
        intro W₃ _ _ hW₃ _
        exact Agree.ofExcept (hr.mono (le_trans hW₂ hW₃))
      | _ => exact Agree.fault _
    | _ => exact Agree.fault _

/-- Receiving a result agrees. -/
theorem receiveResult_agree (outcome : Outcome) {v v' : Value} (hv : Value.Linked W v v') :
  Agree L n W Value.Linked (receiveResult outcome v) (receiveResult outcome v')
  := by
  apply Agree.bind (Agree.change _)
  · intro W₁ _ _ hW₁ _
    exact Agree.pure (.scalar .nil)
  · intro m m' hm
    exact { hm with stage := { hm.stage with results := .cons ⟨rfl, hv⟩ hm.stage.results } }

variable {call call' : Call} (hcall : Call.Agree L call call') {fuel : Nat}
include hcall

omit hcall in
/-- Resuming pieces of work agrees. -/
theorem resumeAll_agree (works : List Script) :
  Agree L n W Same (resumeAll call fuel works) (resumeAll call' fuel works)
  := by
  induction works generalizing W with
  | nil => exact Agree.pure rfl
  | cons work rest ih =>
    apply Agree.bind (toValue_agree _)
    intro W₁ f f' hW₁ hf
    apply Agree.bind (Agree.attempt (resume_agree (.plain hf)))
    intro W₂ r r' hW₂ hr
    apply Agree.bind (Agree.answer hr)
    rintro W₃ line _ hW₃ rfl
    apply Agree.bind (Agree.record _)
    intro W₄ _ _ hW₄ _
    exact ih

/-- Doing pieces of work in levels of their own agrees. -/
theorem nestAll_agree (works : List Script) :
  Agree L n W Same (nestAll call fuel works) (nestAll call' fuel works)
  := by
  induction works generalizing W with
  | nil => exact Agree.pure rfl
  | cons work rest ih =>
    apply Agree.bind (toValue_agree _)
    intro W₁ f f' hW₁ hf
    apply Agree.bind (Agree.attempt (bounce_agree hcall (hcall (n + 1) W₁ _ _ _ _ hf .nil)))
    intro W₂ r r' hW₂ hr
    apply Agree.bind (Agree.answer hr)
    rintro W₃ line _ hW₃ rfl
    apply Agree.bind (Agree.record _)
    intro W₄ _ _ hW₄ _
    exact ih

/-- Doing a piece of work agrees. -/
theorem runScript_agree (work : Script) :
  Agree L n W Value.Linked (runScript call fuel work) (runScript call' fuel work)
  := by
  obtain ⟨label, resumed, nested, result⟩ := work
  apply Agree.bind (Agree.record _)
  intro W₁ _ _ hW₁ _
  apply Agree.bind (resumeAll_agree resumed)
  intro W₂ _ _ hW₂ _
  apply Agree.bind (nestAll_agree hcall nested)
  intro W₃ _ _ hW₃ _
  cases result with
  | thunk work => exact pending_agree _
  | unwind work =>
    apply Agree.bind (pending_agree _)
    intro W₄ v v' hW₄ hv
    exact bounce_agree hcall (Agree.pure hv)
  | countdown k => exact steps_agree k
  | error kind message => exact Agree.raise _ _
  | value d => exact Agree.pure (Value.Linked.ofDatum _ d)

/-- Calling the operation of the stage agrees. -/
theorem operate_agree {vs vs' : List Value} (hvs : List.Forall₂ (Value.Linked W) vs vs') :
  Agree L n W Value.Linked (operate call vs) (operate call' vs')
  := by
  have hreverse := List.rel_reverse hvs
  unfold operate
  revert hreverse
  generalize vs.reverse = ws, vs'.reverse = ws'
  rintro (_ | ⟨hf, _ | ⟨hk, hrest⟩⟩)
  · exact Agree.raise _ _
  · exact Agree.raise _ _
  · apply Agree.bind (request_agree (List.rel_reverse hrest))
    rintro W₁ d d' hW₁ ⟨hr, hlate⟩
    have haddressee := addressee_linked (hk.mono hW₁) (hf.mono hW₁) hr
    dsimp only
    rw [hlate]
    split
    · apply Agree.bind (postpone_agree haddressee.target haddressee.argument)
      intro W₂ _ _ hW₂ _
      exact Agree.pure (.scalar .nil)
    · apply Agree.bind (hcall n W₁ _ _ _ _ haddressee.target (.cons haddressee.argument .nil))
      intro W₂ _ _ hW₂ _
      exact Agree.pure (.scalar .nil)

/-- Instruments agree on linked arguments. -/
theorem apply_agree (i : Instrument) {vs vs' : List Value}
    (hvs : List.Forall₂ (Value.Linked W) vs vs') :
  Agree L n W Value.Linked (i.apply call fuel vs) (i.apply call' fuel vs')
  := by
  cases i with
  | record outcome =>
    apply Agree.bind (Agree.shown (Value.Linked.headD hvs))
    rintro W₁ s _ hW₁ rfl
    apply Agree.bind (Agree.record _)
    intro W₂ _ _ hW₂ _
    exact Agree.pure (.scalar .nil)
  | probe x left =>
    have hrest : ∀ {W}, Agree L n W Value.Linked
        (if left = 0 then return Value.nil else pending (.probe x (left - 1)))
        (if left = 0 then return Value.nil else pending (.probe x (left - 1))) := by
      intro W
      split
      · exact Agree.pure (.scalar .nil)
      · exact pending_agree _
    apply Agree.bind Agree.capture
    intro W₁ c c' hW₁ hc
    have hrel := hc.lookup?_rel x
    revert hrel
    generalize c.lookup? x = o, c'.lookup? x = o'
    rintro (hv | _)
    · apply Agree.bind (Agree.shown hv)
      rintro W₂ s _ hW₂ rfl
      apply Agree.bind (Agree.record _)
      intro W₃ _ _ hW₃ _
      exact hrest
    · apply Agree.bind (Agree.record _)
      intro W₃ _ _ hW₃ _
      exact hrest
  | countdown left => exact steps_agree left
  | perform work => exact runScript_agree hcall work
  | operation => exact operate_agree hcall hvs
  | answer => exact answerWith_agree hvs
  | receive outcome => exact receiveResult_agree outcome (Value.Linked.headD hvs)

end Instrument

/-- Native functions that are linked agree on linked arguments. -/
theorem Native.apply_agree {call call' : Call} (hcall : Call.Agree L call call') {fuel : Nat}
    {f f' : Native Value} (hf : Value.Linked W (.native f) (.native f')) {vs vs' : List Value}
    (hvs : List.Forall₂ (Value.Linked W) vs vs') :
  Agree L n W Value.Linked (f.apply call fuel vs) (f'.apply call' fuel vs')
  := by
  cases hf with
  | builtin b => exact Builtin.apply_agree hvs b
  | primitive p => exact Primitive.apply_agree hcall hvs p
  | sentinel op => exact scopeViolation_agree hvs op
  | awaitContinuation hid hs hk => exact Continuation.succeed_agree hvs hs hk
  | awaitFailure hid hs hk => exact Continuation.fail_agree hvs hs hk
  | settle hid he ht => exact Continuation.settle_agree hvs he _ ht
  | inContext hid hs hf =>
    apply Agree.bind (Agree.entering hs (hcall n W _ _ _ _ hf .nil))
    intro W₁ next next' hW₁ hnext
    exact inContext_agree (Context.Linked.mono hW₁ hs) hnext
  | timer op => exact TimerOp.apply_agree hcall hvs op
  | instrument i hid => exact Instrument.apply_agree hcall i hvs

/-! ### Evaluation -/

/-- Values of trees that are not in the tail of a loop agree. -/
theorem TailResult.toValue_agree {r r' : TailResult} (h : TailResult.Rel (Value.Linked W) r r') :
  Agree L n W Value.Linked r.toValue r'.toValue
  := by
  cases h with
  | value hv => exact Agree.pure hv
  | again hvs => exact Agree.raise _ _

namespace Eval

variable {S : Symbol → Prop} {env env' : Env}

/-- Two evaluators agree on trees that mention only names of `S`. -/
def Agrees (L : Likeness) (n : Nat) (S : Symbol → Prop)
    (eval eval' : Env → Expr → Run Value) : Prop :=
  ∀ W env env' e, Env.Linked W S env env' → (∀ x, e.Mentions x → S x) →
    Agree L n W Value.Linked (eval env e) (eval' env' e)

variable {eval eval' : Env → Expr → Run Value} (heval : Agrees L n S eval eval')

/-- Loops agree when their bodies do. -/
theorem repeatLoop_agree {body body' : Env → Run TailResult} {enter enter' : List Value → Env}
    (hbody : ∀ W env env', Env.Linked W S env env' →
      Agree L n W TailResult.Linked (body env) (body' env'))
    (henter : ∀ W', W ≤ W' → ∀ vs vs', List.Forall₂ (Value.Linked W') vs vs' →
      Env.Linked W' S (enter vs) (enter' vs')) (fuel : Nat) (henv : Env.Linked W S env env') :
  Agree L n W TailResult.Linked (repeatLoop body enter fuel env)
    (repeatLoop body' enter' fuel env')
  := by
  induction fuel generalizing W env env' with
  | zero => exact Agree.exhausted
  | succ fuel ih =>
    apply Agree.bind (hbody W env env' henv)
    rintro W₁ r r' hW₁ (hv | hvs)
    · exact Agree.pure (.value hv)
    · exact ih (fun W' hW' => henter W' (le_trans hW₁ hW')) (henter W₁ hW₁ _ _ hvs)

include heval

/-- Lists of trees agree. -/
theorem mapM_agree (es : List Expr) (hS : ∀ e ∈ es, ∀ x, e.Mentions x → S x)
    (henv : Env.Linked W S env env') :
  Agree L n W (fun W => List.Forall₂ (Value.Linked W)) (es.mapM (eval env))
    (es.mapM (eval' env'))
  := by
  apply Agree.mapM fun hW h => h.mono hW
  rw [List.forall₂_same]
  intro e he W' hW'
  exact heval W' env env' e (henv.mono hW') (hS e he)

/-- Bindings agree. -/
theorem bindAll_agree (bindings : List (Symbol × Expr))
    (hS : ∀ b ∈ bindings, ∀ x, b.2.Mentions x → S x) (henv : Env.Linked W S env env') :
  Agree L n W (fun W => Env.Linked W S) (bindAll eval env bindings)
    (bindAll eval' env' bindings)
  := by
  induction bindings generalizing W env env' with
  | nil => exact Agree.pure henv
  | cons b rest ih =>
    apply Agree.bind (heval W env env' b.2 henv (hS b List.mem_cons_self))
    intro W₁ v v' hW₁ hv
    exact ih (fun c hc => hS c (List.mem_cons_of_mem _ hc)) ((henv.mono hW₁).cons _ hv)

/-- Sequences agree. -/
theorem runAll_agree (es : List Expr) (hS : ∀ e ∈ es, ∀ x, e.Mentions x → S x)
    (henv : Env.Linked W S env env') :
  Agree L n W Same (runAll eval env es) (runAll eval' env' es)
  := by
  induction es generalizing W with
  | nil => exact Agree.pure rfl
  | cons e es ih =>
    apply Agree.bind (heval W env env' e henv (hS e List.mem_cons_self))
    intro W₁ _ _ hW₁ _
    exact ih (fun c hc => hS c (List.mem_cons_of_mem _ hc)) (henv.mono hW₁)

/-- Clauses agree on linked conditions. -/
theorem selectClause_agree (clauses : List (Clause Expr))
    (hS : ∀ clause ∈ clauses, ∀ x, clause.body.Mentions x → S x)
    {c c' : Condition Value} (hc : Condition.Linked W c c') (henv : Env.Linked W S env env') :
  Agree L n W Value.Linked (selectClause eval env clauses c)
    (selectClause eval' env' clauses c')
  := by
  obtain ⟨hd⟩ := hc
  rename_i kind message data data'
  have haccepts : (fun clause : Clause Expr =>
        clause.selector.accepts (.condition ⟨kind, message, data⟩)) =
      fun clause : Clause Expr => clause.selector.accepts (.condition ⟨kind, message, data'⟩) := by
    funext clause
    exact (Value.Linked.condition hd).accepts_eq clause.selector
  rw [selectClause, selectClause, haccepts]
  split
  · rename_i clause hclause
    exact heval W _ _ _ (henv.cons _ (.condition hd)) (hS _ (List.mem_of_find?_eq_some hclause))
  · exact Agree.raiseCondition (.mk hd)

/-- Protected bodies agree. -/
theorem protect_agree (body : Expr) (clauses : List (Clause Expr)) (cleanup : Option Expr)
    (hbody : ∀ x, body.Mentions x → S x)
    (hclauses : ∀ clause ∈ clauses, ∀ x, clause.body.Mentions x → S x)
    (hcleanup : ∀ e ∈ cleanup, ∀ x, e.Mentions x → S x) (henv : Env.Linked W S env env') :
  Agree L n W Value.Linked (protect eval env body clauses cleanup)
    (protect eval' env' body clauses cleanup)
  := by
  apply Agree.bind
  · apply Agree.attempt
    apply Agree.bind (Agree.attempt (heval W env env' body henv hbody))
    intro W₁ r r' hW₁ hr
    cases hr with
    | ok hv => exact Agree.pure hv
    | error hc => exact selectClause_agree heval clauses hclauses hc (henv.mono hW₁)
  · intro W₁ r r' hW₁ hr
    cases cleanup with
    | none => exact Agree.ofExcept hr
    | some e =>
      apply Agree.bind (heval W₁ env env' e (henv.mono hW₁) (hcleanup e rfl))
      intro W₂ _ _ hW₂ _
      exact Agree.ofExcept (hr.mono hW₂)

end Eval

/-- Evaluating a tree in linked scopes agrees, in the tail of a loop. -/
theorem Expr.tail_agree {call call' : Call} (hcall : Call.Agree L call call') (fuel : Nat)
    {S : Symbol → Prop} {env env' : Env} (e : Expr) (hS : ∀ x, e.Mentions x → S x)
    (henv : Env.Linked W S env env') :
  Agree L n W TailResult.Linked (e.tail call fuel env) (e.tail call' fuel env')
  := by
  induction fuel generalizing W env env' e with
  | zero => exact Agree.exhausted
  | succ fuel ih =>
    have heval : Eval.Agrees L n S (fun env e => do (← e.tail call fuel env).toValue)
        (fun env e => do (← e.tail call' fuel env).toValue) := by
      intro W env env' e henv hS
      apply Agree.bind (ih e hS henv)
      intro W₁ r r' hW₁ hr
      exact TailResult.toValue_agree hr
    have hvalue : ∀ {W} {act act' : Run Value}, Agree L n W Value.Linked act act' →
        Agree L n W TailResult.Linked (do return .value (← act)) (do return .value (← act')) := by
      intro W act act' h
      apply Agree.bind h
      intro W₁ v v' hW₁ hv
      exact Agree.pure (.value hv)
    have hchild : ∀ c ∈ e.children, ∀ x, c.Mentions x → S x :=
      fun c hc x hx => hS x (.child hc hx)
    cases e with
    | literal d => exact Agree.pure (.value (Value.Linked.ofDatum W d))
    | builtin b => exact Agree.pure (.value (.builtin b))
    | var x => exact hvalue (Agree.lookup (henv x (hS x .var)))
    | lambda name params body =>
      apply Agree.bind Agree.freshId
      intro W₁ i j hW₁ hij
      exact Agree.pure (.value (.closure hij fun x hx => henv.mono hW₁ x (hS x (.body hx))))
    | call f args =>
      apply Agree.bind (heval W env env' f henv (hchild f List.mem_cons_self))
      intro W₁ g g' hW₁ hg
      apply Agree.bind (Eval.mapM_agree heval args
        (fun c hc => hchild c (List.mem_cons_of_mem _ hc)) (henv.mono hW₁))
      intro W₂ vs vs' hW₂ hvs
      exact hvalue (hcall n W₂ _ _ _ _ (hg.mono hW₂) hvs)
    | cond test yes no =>
      apply Agree.bind (heval W env env' test henv (hchild test (by simp [children])))
      intro W₁ v v' hW₁ hv
      rw [hv.isTruthy_eq]
      split
      · exact ih yes (hchild yes (by simp [children])) (henv.mono hW₁)
      · exact ih no (hchild no (by simp [children])) (henv.mono hW₁)
    | seq es =>
      unfold Expr.tail
      dsimp only
      split
      · exact Agree.pure (.value (.scalar .nil))
      · rename_i last hlast
        apply Agree.bind (Eval.runAll_agree heval es.dropLast
          (fun c hc => hchild c ((List.dropLast_sublist es).subset hc)) henv)
        intro W₁ _ _ hW₁ _
        exact ih last (hchild last (List.mem_of_getLast? hlast)) (henv.mono hW₁)
    | bind bindings body =>
      apply Agree.bind (Eval.bindAll_agree heval bindings
        (fun b hb => hchild b.2 (List.mem_append_left _ (List.mem_map_of_mem hb))) henv)
      intro W₁ inner inner' hW₁ hinner
      exact ih body (hchild body (by simp [children])) hinner
    | loop bindings body =>
      apply Agree.bind (Eval.bindAll_agree heval bindings
        (fun b hb => hchild b.2 (List.mem_append_left _ (List.mem_map_of_mem hb))) henv)
      intro W₁ first first' hW₁ hfirst
      apply Eval.repeatLoop_agree (S := S) _ _ fuel hfirst
      · intro W env env' henv
        exact ih body (hchild body (by simp [children])) henv
      · intro W' hW' vs vs' hvs
        exact (henv.mono (le_trans hW₁ hW')).extend _ hvs
    | recur args =>
      apply Agree.bind (Eval.mapM_agree heval args hchild henv)
      intro W₁ vs vs' hW₁ hvs
      exact Agree.pure (.again hvs)
    | protect body clauses cleanup =>
      apply hvalue
      apply Eval.protect_agree heval body clauses cleanup (hchild body (by simp [children]))
        _ _ henv
      · intro clause hclause
        exact hchild clause.body
          (List.mem_append_left _ (List.mem_cons_of_mem _ (List.mem_map_of_mem hclause)))
      · intro e he
        exact hchild e (List.mem_append_right _ (Option.mem_toList.2 he))
    | define x e =>
      apply Agree.bind (heval W env env' e henv (hchild e (by simp [children])))
      intro W₁ v v' hW₁ hv
      apply Agree.bind (Agree.define x hv)
      intro W₂ _ _ hW₂ _
      exact Agree.pure (.value (hv.mono hW₂))

/-- Evaluating a tree in linked scopes agrees. -/
theorem Expr.eval_agree {call call' : Call} (hcall : Call.Agree L call call') (fuel : Nat)
    {S : Symbol → Prop} {env env' : Env} (e : Expr) (hS : ∀ x, e.Mentions x → S x)
    (henv : Env.Linked W S env env') :
  Agree L n W Value.Linked (e.eval call fuel env) (e.eval call' fuel env')
  := by
  apply Agree.bind (e.tail_agree hcall fuel hS henv)
  intro W₁ r r' hW₁ hr
  exact TailResult.toValue_agree hr

/-! ### Calls -/

/-- Call a value, where the calls that this leads to are made by `call`. -/
def Value.callWith (call : Call) (fuel : Nat) : Call := fun f args =>
  match f with
  | .native g => g.apply call fuel args
  | .closure _ name params body env => Eval.enterClosure call fuel f name params body env args
  | f => do
    Run.raise .typeError ("cannot call a " ++ f.typeName ++ ": " ++ (← Run.textOf f))

/-- Calls with more fuel lead to calls with less. -/
theorem Value.call_succ (fuel : Nat) :
  Value.call (fuel + 1) = Value.callWith (Value.call fuel) fuel
  := by
  funext f args
  cases f <;> rfl

/-- Calls agree when the calls that they lead to do. -/
theorem Value.callWith_agree {call call' : Call} (hcall : Call.Agree L call call') (fuel : Nat) :
  Call.Agree L (Value.callWith call fuel) (Value.callWith call' fuel)
  := by
  intro n W f f' vs vs' hf hvs
  have hnot : ∀ {v v' : Value}, Value.Linked W v v' → Agree L n W Value.Linked
      (do Run.raise .typeError ("cannot call a " ++ v.typeName ++ ": " ++ (← Run.textOf v)))
      (do Run.raise .typeError ("cannot call a " ++ v'.typeName ++ ": " ++ (← Run.textOf v')))
      := by
    intro v v' hv
    apply Agree.bind (Agree.textOf hv)
    rintro W₁ text _ hW₁ rfl
    rw [hv.typeName_eq]
    exact Agree.raise _ _
  have hlinked := hf
  cases hf with
  | closure hid henv =>
    rename_i name params body env env'
    apply Agree.bind (Agree.checkArity _ _ hvs)
    intro W₁ _ _ hW₁ _
    apply body.eval_agree hcall fuel (S := fun x => body.Mentions x) fun x hx => hx
    apply Env.Rel.extend _ (Value.Linked.mono_all hW₁ hvs)
    cases name with
    | none => exact fun x hx => optionRel_imp (fun _ _ hv => hv.mono hW₁) (henv x hx)
    | some name =>
      apply Env.Rel.cons _ (hlinked.mono hW₁)
      exact fun x hx => optionRel_imp (fun _ _ hv => hv.mono hW₁) (henv x hx)
  | scalar s => exact hnot hlinked
  | list hs => exact hnot hlinked
  | vector hs => exact hnot hlinked
  | condition hd => exact hnot hlinked
  | thunk hid hr => exact hnot hlinked
  | atom hl => exact hnot hlinked
  | execution id => exact hnot hlinked
  | _ => exact @Native.apply_agree _ _ _ _ _ hcall fuel _ _ hlinked _ _ hvs

/-- Linked functions agree on linked arguments. -/
theorem Value.call_agree (L : Likeness) (fuel : Nat) :
  Call.Agree L (Value.call fuel) (Value.call fuel)
  := by
  induction fuel with
  | zero =>
    intro n W f f' vs vs' hf hvs
    exact Agree.exhausted
  | succ fuel ih =>
    rw [Value.call_succ]
    exact Value.callWith_agree ih fuel

end Skein
