import Skein.Proofs.Regime.Everything
import Skein.Proofs.Regime.Stock
import Skein.Proofs.Tidy.Forms

/-!
# The dynamic context is left as it was found

Evaluating a tree drives the same execution before and after.  It also leaves the frames of
dynamic bindings as they were, unless it calls, while no other execution is driven, a
function that leaves a frame behind.  Only the function that a coroutine body becomes can be
such a function: it enters a frame and leaves it in a continuation.
-/

namespace Skein

open Run Trampoline

/-! ### The execution that is driven -/

/-- A computation drives the same execution before and after. -/
def Machine.SameExecution (m m' : Machine) : Prop := m'.context.execution = m.context.execution

/-- A context that has been left to some depth drives the same execution. -/
theorem Context.execution_popTo {α : Type} {c c' : Context α} {depth : Nat}
    (h : c.popTo depth = .ok c') :
  c'.execution = c.execution
  := by
  unfold popTo at h
  cases hf : framesTo depth c.frames with
  | ok frames =>
    rw [hf] at h
    cases h
    rfl
  | error found =>
    rw [hf] at h
    cases h

/-- Frames are left where the depth is that of a frame in force. -/
theorem Run.gives_popFrames {m : Machine} {depth : Nat} {c : Context Value}
    (h : m.context.popTo depth = .ok c) :
  (Run.popFrames depth).Gives m (.ok ()) { m with context := c }
  := by
  have hget : (get : Run Machine).Gives m (.ok m) m := rfl
  apply hget.bind
  rw [h]
  rfl

/-- A condition is raised where it is not. -/
theorem Run.raises_popFrames {m : Machine} {depth found : Nat}
    (h : m.context.popTo depth = .error found) :
  (Run.popFrames depth).Gives m (.error ⟨.error, "binding frame " ++ toString depth
    ++ " is not active (depth is " ++ toString found ++ ")", .nil⟩) m
  := by
  have hget : (get : Run Machine).Gives m (.ok m) m := rfl
  apply hget.bind
  rw [h]
  rfl

/-- The computations of a level drive the same execution before and after, where every
operation of the machine does. -/
theorem Machine.SameExecution.of_drains {R : Regime} (hkeeps : R.keeps = Machine.SameExecution)
    {m m' : Machine} (h : R.Drains m m') :
  m.SameExecution m'
  := by
  induction h with
  | kept h =>
    rw [hkeeps] at h
    exact h
  | dequeued _ => rfl
  | trans _ _ ih ih₁ => exact ih₁.trans ih

/-- The operations of the machine drive the same execution before and after, whatever values
the program may hold. -/
theorem Machine.sameExecution_keeping {R : Regime} (hkeeps : R.keeps = Machine.SameExecution) :
  R.Keeping
  where
  refl _ := by rw [hkeeps]; rfl
  trans h h' := by
    rw [hkeeps] at *
    exact h'.trans h
  inert h := by
    rw [hkeeps]
    exact congrArg Context.execution h.context
  noted := by intros; rw [hkeeps]; rfl
  enqueued _ _ := by rw [hkeeps]; rfl
  counted _ _ := by rw [hkeeps]; rfl
  entering _ := by rw [hkeeps]; rfl
  outside h := by
    rw [hkeeps] at *
    exact h
  bounce _ h := by
    rw [hkeeps]
    have hsame := SameExecution.of_drains hkeeps h
    exact hsame
  push _ _ _ := by rw [hkeeps]; rfl
  pop _ _ _ _ h := by
    rw [hkeeps]
    exact Context.execution_popTo h

/-! ### Calling functions that may leave frames behind -/

/-- Values that hold no function which enters or leaves frames. -/
def Stock.framed : Stock where
  builtin b := b.movesFrames = false
  primitive _ := True
  body e := e.isFramed = true
  nests := True
  run _ := trivial
  unwind _ := trivial

namespace Regime

/-- The regime in which the functions that enter and leave frames are not held; the same
execution is driven before and after. -/
def framed : Regime :=
  ofStock .framed (fun _ => True) (·.isFramed = true) True Machine.SameExecution

/-- Where the functions that enter and leave frames are not held, the operations of the
machine drive the same execution before and after. -/
theorem framed_lawful :
  framed.Lawful
  where
  toClosed := ofStock_closed _ _ _ _ fun _ _ _ => trivial
  toKeeping := Machine.sameExecution_keeping rfl
  held h := .builtin (Expr.isFramed_iff.1 h).1
  var _ := trivial
  lambda h := (Expr.isFramed_iff.1 h).2 _ List.mem_cons_self

/-- The value of a tree whose value has been found. -/
@[simp] theorem toValue_value (v : Value) :
  (TailResult.value v).toValue = pure v
  := rfl

/-- A function that a tree holds is its value. -/
theorem builtin_kept {call : Call} {fuel : Nat} {env : Env} {b : Builtin} {α : Type}
    {k : Value → Run α} {R : Regime} {post : α → Prop} {m m₁ : Machine}
    (h : R.Kept post m₁ (k (.native (.builtin b)) m)) :
  R.Kept post m₁ (((Expr.builtin b).tail call fuel env >>= fun r => r.toValue >>= k) m)
  := by
  cases fuel with
  | zero => exact .exhausted
  | succ fuel => exact h

/-- Where the functions that enter and leave frames are not held, they may be called. -/
theorem framed_evaluable :
  framed.Evaluable
  := by
  intro e he
  rcases Expr.isFramed_children he with h | ⟨b, args, rfl, hb⟩
  · exact .inl h
  · right
    intro call fuel hcall hruns ih env henv m hm
    have hargs : ∀ a ∈ args, a.isFramed = true := (Expr.isFramed_iff.1 he).2
    have hlater : (do
        let vs ← args.mapM fun e => do (← e.tail call fuel env).toValue
        return .value (← call (.native (.builtin b)) vs) : Run TailResult).Keeps framed
        (TailResult.Holds framed.value) := by
      apply Keeps.bind framed_lawful
      · apply Keeps.mapM framed_lawful
        intro a ha
        apply Keeps.bind framed_lawful (ih fuel (Nat.le_refl fuel) env a (hargs a ha) henv)
        intro r hr
        exact TailResult.toValue_keeps framed_lawful hr
      · intro vs hvs
        refine Keeps.bind framed_lawful (?_ : Run.Keeps framed framed.value _) ?_
        · rcases hruns b vs with h | h <;> rw [h]
          · exact b.apply_keeps framed_lawful (fun _ => trivial) hvs
          · exact Keeps.exhausted
        · intro v hv
          exact Keeps.pure framed_lawful (.value hv)
    unfold Expr.tail
    dsimp only
    rw [bind_assoc]
    exact builtin_kept (hlater m hm)

end Regime

/-! ### Frames that are left -/

/-- A computation drives the same execution before and after, and leaves the context as it was
when that execution is `own`. -/
structure Machine.Restores (own : Option Nat) (m m' : Machine) : Prop where
  execution : m.SameExecution m'
  context : m.context.execution = own → m'.context = m.context

/-- A computation that leaves the context as it was restores it. -/
theorem Machine.Restores.of_eq {own : Option Nat} {m m' : Machine}
    (h : m'.context = m.context) :
  m.Restores own m'
  := ⟨congrArg Context.execution h, fun _ => h⟩

/-- A change of the innermost level restores the machine. -/
theorem Machine.Restores.level {own : Option Nat} {m : Machine} {level level' : Level}
    {levels : List Level} (_ : m.levels = level :: levels) :
  m.Restores own { m with levels := level' :: levels }
  := .of_eq rfl

/-- A machine that is restored twice is restored. -/
theorem Machine.Restores.trans {own : Option Nat} {m m₁ m₂ : Machine} (h : m.Restores own m₁)
    (h₁ : m₁.Restores own m₂) :
  m.Restores own m₂
  := by
  refine ⟨h₁.execution.trans h.execution, fun hown => ?_⟩
  exact (h₁.context (h.execution.trans hown)).trans (h.context hown)

namespace Regime

/-- The regime in which trees leave the frames that they enter, while the execution `own` is
driven. -/
def restoring (own : Option Nat) : Regime :=
  ofStock .framed (fun _ => True) Expr.Tidy False
    (Machine.Restores own)

variable {own : Option Nat}

/-- Where trees leave the frames that they enter, the operations of the machine restore the
context. -/
theorem restoring_lawful (own : Option Nat) :
  (restoring own).Lawful
  where
  toClosed := by
    apply ofStock_closed
    intro b hb hmoves
    exact Bool.noConfusion (hb.symm.trans hmoves)
  refl _ := .of_eq rfl
  trans := Machine.Restores.trans
  inert h := .of_eq h.context
  noted _ := .of_eq rfl
  enqueued _ _ := .of_eq rfl
  counted _ _ := .of_eq rfl
  entering _ := .of_eq rfl
  outside h := ⟨h.execution, h.context⟩
  bounce _ h := by
    have hrestores := h.keeps Machine.Restores.trans Machine.Restores.level
    exact ⟨hrestores.execution, hrestores.context⟩
  push h := h.elim
  pop h := h.elim
  held h := .builtin (Expr.isFramed_iff.1 h.framed).1
  var _ := trivial
  lambda h := (Expr.isFramed_iff.1 h.framed).2 _ List.mem_cons_self

section leaving

variable {R : Regime} {α : Type} {post : α → Prop} {m m₁ m₃ : Machine}
  {bs : List (Symbol × Value)} {vs : List Value}

/-- A depth as a value stands for that depth. -/
theorem toInt_depth {depth : Nat} (h : depth ≤ Int64.maxValue.toNatClampNeg) :
  (Int64.ofNat depth).toInt = depth
  := by
  apply Int64.toInt_ofNat_of_lt
  have hmax : Int64.maxValue.toNatClampNeg = 9223372036854775807 := by decide
  omega

/-- What is done after a frame has been entered is done inside of the frame. -/
theorem enterFrame_bind {k : Value → Run α} (hvs : ∀ v ∈ vs, (restoring own).value v)
    (hk : ∀ m₁ bs, m₁.Obeys (restoring own) → (∀ b ∈ bs, (restoring own).value b.2) →
      m₁.context.depth ≤ Int64.maxValue.toNatClampNeg →
      (restoring own).Kept post m₁ (k (.int (.ofNat m₁.context.depth))
        { m₁ with context := m₁.context.push bs })) :
  (Builtin.enterFrame vs >>= k).Keeps (restoring own) post
  := by
  have hR := restoring_lawful own
  unfold Builtin.enterFrame
  split
  · rw [bind_assoc]
    apply Keeps.bind hR (Builtin.bindings_keeps hR hvs)
    intro bs hbs m₁ hm₁
    have hpush : ((do Builtin.depthValue (← Run.pushFrame bs)) >>= k) m₁ =
        (Builtin.depthValue m₁.context.depth >>= k) { m₁ with context := m₁.context.push bs } :=
      rfl
    rw [hpush, Builtin.depthValue]
    split
    · rename_i hdepth
      exact hk m₁ bs hm₁ hbs hdepth
    · exact .fault trivial
  · exact Keeps.bind hR (Keeps.raise hR _ _) fun v hv => absurd hv id

/-- A frame is left when everything inside of it has restored the context. -/
theorem leaveFrames_kept (hdepth : m₁.context.depth ≤ Int64.maxValue.toNatClampNeg)
    (hm₃ : m₃.Obeys (restoring own))
    (hk : Machine.Restores own { m₁ with context := m₁.context.push bs } m₃) :
  (restoring own).Kept (restoring own).value m₁
    (Builtin.leaveFrames (.int (.ofNat m₁.context.depth)) m₃)
  := by
  have hint := toInt_depth hdepth
  have hleave : Builtin.leaveFrames (.int (.ofNat m₁.context.depth)) m₃ =
      (Run.popFrames m₁.context.depth >>= fun _ => (pure .nil : Run Value)) m₃ := by
    have hpos : ¬ Int64.ofNat m₁.context.depth < 0 := by
      rw [Int64.lt_iff_toInt_lt, hint]
      simp
    change (if Int64.ofNat m₁.context.depth < 0 then _ else
      (Run.popFrames (Int64.ofNat m₁.context.depth).toInt.toNat >>= fun _ => pure .nil :
        Run Value)) m₃ = _
    rw [if_neg hpos, hint, Int.toNat_natCast]
  rw [hleave]
  have hexecution : m₃.context.execution = m₁.context.execution := hk.execution
  have hpopped : m₁.context.execution = own →
      m₃.context.popTo m₁.context.depth = .ok m₁.context := by
    intro hown
    rw [hk.context hown]
    exact Context.popTo_push _ _
  cases h : m₃.context.popTo m₁.context.depth with
  | ok c =>
    have hpop := (gives_popFrames h).bind (k := fun _ => (pure .nil : Run Value)) (gives_pure _ _)
    rw [hpop]
    refine .ok (.scalar .nil) { hm₃ with context := hm₃.context.popTo h } ?_
    refine ⟨(Context.execution_popTo h).trans hexecution, fun hown => ?_⟩
    rw [hpopped hown] at h
    exact (Except.ok.inj h).symm
  | error found =>
    have hpop := (raises_popFrames h).bind_error (k := fun _ => (pure .nil : Run Value))
    rw [hpop]
    refine .raised (.scalar .nil) hm₃ ⟨hexecution, fun hown => ?_⟩
    rw [hpopped hown] at h
    cases h

/-- What is done after a cleanup has left a frame is done outside of it. -/
theorem cleanup_kept {call : Call} {fuel : Nat} {env : Env} {depth : Symbol} {v : Value}
    (hruns : call.RunsBuiltins)
    (h : (restoring own).Kept (restoring own).value m₁ (Builtin.leaveFrames v m₃)) :
  (restoring own).Kept (restoring own).value m₁
    ((do (← (Expr.call (.builtin .popBindings) [.var depth]).tail call fuel
      ((depth, v) :: env)).toValue : Run Value) m₃)
  := by
  cases fuel with
  | zero => exact .exhausted
  | succ fuel =>
    unfold Expr.tail
    dsimp only
    simp only [bind_assoc]
    apply builtin_kept
    rw [List.mapM_cons, List.mapM_nil]
    cases fuel with
    | zero => exact .exhausted
    | succ fuel =>
      have hlookup : Run.lookup ((depth, v) :: env) depth = pure v := by
        rw [Run.lookup, List.lookup_cons, beq_self_eq_true]
      unfold Expr.tail
      simp only [hlookup, pure_bind, toValue_value, bind_pure]
      rcases hruns .popBindings [v] with hcall | hcall <;> rw [hcall]
      · exact h
      · exact .exhausted

/-- A protected body leaves the frame that has been entered around it. -/
theorem protect_kept {call : Call} {fuel : Nat} {env : Env} {depth : Symbol} {body : Expr}
    (hruns : call.RunsBuiltins)
    (hbody : (restoring own).Evaluates (fun env e => do (← e.tail call fuel env).toValue) body)
    (henv : env.Obeys (restoring own)) (hm₁ : m₁.Obeys (restoring own))
    (hbs : ∀ b ∈ bs, (restoring own).value b.2)
    (hdepth : m₁.context.depth ≤ Int64.maxValue.toNatClampNeg) :
  (restoring own).Kept (TailResult.Holds (restoring own).value) m₁
    ((Expr.protect body [] (some (.call (.builtin .popBindings) [.var depth]))).tail call
      (fuel + 1) ((depth, .int (.ofNat m₁.context.depth)) :: env)
      { m₁ with context := m₁.context.push bs })
  := by
  have hR := restoring_lawful own
  have hm₂ : Machine.Obeys (restoring own) { m₁ with context := m₁.context.push bs } :=
    { hm₁ with context := List.forall_mem_cons.2 ⟨hbs, hm₁.context⟩ }
  have hv : (restoring own).value (.int (.ofNat m₁.context.depth)) := .scalar _
  have hclauses := Eval.clauses_keeps hR hbody (fun _ h => absurd h List.not_mem_nil)
    (henv.cons depth hv) _ hm₂
  unfold Expr.tail
  dsimp only
  unfold Eval.protect
  rw [bind_assoc, bind_apply]
  revert hclauses
  generalize hattempt : Run.attempt _ _ = r
  rintro (⟨hresult, hm₃, hk⟩ | ⟨_, _, _⟩ | ⟨hf⟩ | _)
  · dsimp only
    rw [bind_assoc]
    apply (cleanup_kept hruns (leaveFrames_kept hdepth hm₃ hk)).bind hR
    intro _ _
    apply Keeps.bind hR (Keeps.ofExcept hR hresult)
    intro v hv
    exact Keeps.pure hR (.value hv)
  · exact absurd hattempt (attempt_ne_raised _ _ _ _)
  · exact .fault trivial
  · exact .exhausted

/-- Evaluating a tree that leaves the frame that it enters restores the context. -/
theorem special_frame {depth : Symbol} {args : List Expr} {body : Expr}
    (hargs : ∀ a ∈ args, (restoring own).code a) (hbody : (restoring own).code body) :
  (restoring own).Special (.bind [(depth, .call (.builtin .pushBindings) args)]
    (.protect body [] (some (.call (.builtin .popBindings) [.var depth]))))
  := by
  have hR := restoring_lawful own
  intro call fuel hcall hruns ih env henv
  have heval : ∀ k ≤ fuel, ∀ e, (restoring own).code e →
      (restoring own).Evaluates (fun env e => do (← e.tail call k env).toValue) e := by
    intro k hk e he env henv
    apply Keeps.bind hR (ih k hk env e he henv)
    intro r hr
    exact TailResult.toValue_keeps hR hr
  unfold Expr.tail
  dsimp only
  cases fuel with
  | zero => exact fun _ _ => .exhausted
  | succ fuel =>
    simp only [Eval.bindAll, bind_assoc, pure_bind]
    intro m hm
    rw [Expr.tail]
    simp only [bind_assoc, pure_bind, toValue_value]
    apply builtin_kept
    have hvs := Keeps.mapM hR fun a ha => heval fuel (Nat.le_succ fuel) a (hargs a ha) env henv
    apply (hvs m hm).bind hR
    intro vs hvs
    rcases hruns .pushBindings vs with h | h <;> rw [h]
    · apply enterFrame_bind hvs
      intro m₁ bs hm₁ hbs hdepth
      exact protect_kept hruns (heval fuel (Nat.le_succ fuel) body hbody) henv hm₁ hbs hdepth
    · exact fun _ _ => .exhausted

end leaving

/-- Trees that leave the frames that they enter may be evaluated. -/
theorem restoring_evaluable (own : Option Nat) :
  (restoring own).Evaluable
  := by
  rintro e ⟨hclosed, hframed⟩
  rcases Expr.isClosed_iff.1 hclosed with ⟨args, body, hframe, hargs, hbody⟩ | ⟨-, -, hchildren⟩
  · obtain ⟨depth, rfl⟩ := Expr.frame?_eq_some hframe
    right
    obtain ⟨-, hparts⟩ := Expr.isFramed_iff.1 hframed
    obtain ⟨hpush, hprotect⟩ := List.forall_mem_cons.1 hparts
    obtain ⟨-, hpush⟩ := Expr.isFramed_iff.1 hpush
    obtain ⟨-, hprotect⟩ := Expr.isFramed_iff.1 (hprotect _ List.mem_cons_self)
    exact special_frame (fun a ha => ⟨hargs a ha, hpush a ha⟩)
      ⟨hbody, hprotect body List.mem_cons_self⟩
  · left
    rcases Expr.isFramed_children hframed with h | ⟨b, args, rfl, hb⟩
    · exact fun c hc => ⟨hchildren c hc, h c hc⟩
    · rcases Expr.isClosed_iff.1 (hchildren (.builtin b) List.mem_cons_self) with
        ⟨_, _, h, _⟩ | ⟨_, h, _⟩
      · cases h
      · exact Bool.noConfusion (hb.symm.trans h)

end Regime

/-! ### Calls that leave no frame behind -/

/-- Whether a function literal with a body may be called in a context, where those that may
leave a frame behind may not be called while the execution `own` is driven. -/
def Expr.mayEnter (own : Option Nat) (body : Expr) (c : Context Value) : Bool :=
  c.execution != own || body.isClosed

/-- Call a value as `Value.call` does, but give up where a function literal that may leave a
frame behind is called while the execution `own` is driven. -/
def Value.callClosed (own : Option Nat) : (fuel : Nat) → Call
  | 0, _, _ => throw .exhausted
  | fuel + 1, f, args =>
    match f with
    | .native g => g.apply (callClosed own fuel) fuel args
    | .closure _ name params body env => do
      if body.mayEnter own (← Run.capture) then
        Eval.enterClosure (callClosed own fuel) fuel f name params body env args
      else Run.fault "a function that may leave a frame behind is called"
    | f => do
      Run.raise .typeError ("cannot call a " ++ f.typeName ++ ": " ++ (← Run.textOf f))

/-- Evaluate a tree outside of every scope as `Expr.evalTop` does, but with calls that leave no
frame behind. -/
def Expr.evalClosed (own : Option Nat) (e : Expr) (fuel : Nat) : Run Value :=
  Trampoline.bounce (Value.callClosed own fuel) fuel (e.eval (Value.callClosed own fuel) fuel [])

section closed

variable {own : Option Nat}

/-- Calls that leave no frame behind run the functions that trees hold. -/
theorem Value.callClosed_runsBuiltins (fuel : Nat) :
  Call.RunsBuiltins (Value.callClosed own fuel)
  := by
  intro b vs
  cases fuel with
  | zero => exact .inr rfl
  | succ fuel => exact .inl rfl

/-- Calls that leave no frame behind respect a regime when those of function literals do. -/
theorem Value.callClosed_keeps {R : Regime} (hR : R.Lawful)
    (hgivesUp : R.faults "a function that may leave a frame behind is called")
    (h : ∀ fuel, Call.Keeps R (Value.callClosed own fuel) →
      ∀ id name params body env vs m, R.value (.closure id name params body env) →
        (∀ v ∈ vs, R.value v) → body.mayEnter own m.context = true → m.Obeys R →
        R.Kept R.value m (Eval.enterClosure (Value.callClosed own fuel) fuel
          (.closure id name params body env) name params body env vs m))
    (fuel : Nat) :
  Call.Keeps R (Value.callClosed own fuel)
  := by
  induction fuel with
  | zero =>
    intro f vs _ _
    exact Keeps.exhausted
  | succ fuel ih =>
    intro f vs hf hvs
    cases f with
    | native g => exact g.apply_keeps hR ih hf fuel hvs
    | closure id name params body env =>
      intro m hm
      change R.Kept R.value m ((if body.mayEnter own m.context then _ else _ : Run Value) m)
      split
      · rename_i henter
        exact h fuel ih id name params body env vs m hf hvs henter hm
      · exact .fault hgivesUp
    | _ => exact Value.refuse_keeps hR _

/-- Calls that leave no frame behind drive the same execution before and after. -/
theorem Value.callClosed_framed (fuel : Nat) :
  Call.Keeps .framed (Value.callClosed own fuel)
  := by
  have hR := Regime.framed_lawful
  apply Value.callClosed_keeps hR trivial
  intro fuel ih id name params body env vs m hf hvs _ hm
  exact Eval.enterClosure_keeps hR ih Regime.framed_evaluable (Value.callClosed_runsBuiltins fuel)
    fuel (hR.closure_iff.1 hf).1 hf hvs m hm

/-- While another execution is driven, it is enough that the same one is driven before and
after. -/
theorem Regime.Kept.of_framed {α : Type} {post : α → Prop} {m : Machine}
    {r : EStateM.Result Stop Machine α} (hne : m.context.execution ≠ own)
    (h : Regime.framed.Kept post m r) :
  (restoring own).Kept post m r
  := by
  cases h with
  | ok hv hm' hk => exact .ok hv hm' ⟨hk, fun hown => absurd hown hne⟩
  | raised hd hm' hk => exact .raised hd hm' ⟨hk, fun hown => absurd hown hne⟩
  | fault _ => exact .fault trivial
  | exhausted => exact .exhausted

/-- Calls that leave no frame behind restore the context. -/
theorem Value.callClosed_restoring (fuel : Nat) :
  Call.Keeps (.restoring own) (Value.callClosed own fuel)
  := by
  have hR := Regime.restoring_lawful own
  apply Value.callClosed_keeps hR trivial
  intro fuel ih id name params body env vs m hf hvs henter hm
  have hframed : body.isFramed = true := (hR.closure_iff.1 hf).1
  rcases Bool.or_eq_true_iff.1 henter with hother | hclosed
  · apply Regime.Kept.of_framed (bne_iff_ne.1 hother)
    exact Eval.enterClosure_keeps Regime.framed_lawful (Value.callClosed_framed fuel)
      Regime.framed_evaluable (Value.callClosed_runsBuiltins fuel) fuel hframed hf hvs m hm
  · exact Eval.enterClosure_keeps hR ih (Regime.restoring_evaluable own)
      (Value.callClosed_runsBuiltins fuel) fuel ⟨hclosed, hframed⟩ hf hvs m hm

/-- A call that leaves no frame behind ends as a call does. -/
theorem Value.callClosed_below (fuel : Nat) :
  Call.Below (Value.callClosed own fuel) (Value.call fuel)
  := by
  induction fuel with
  | zero =>
    intro f vs
    exact Below.exhausted _
  | succ fuel ih =>
    intro f vs
    cases f with
    | native g => exact g.apply_below ih (Nat.le_refl fuel) vs
    | closure id name params body env =>
      intro m r m' h
      change ((if body.mayEnter own m.context then _ else _ : Run Value)).Gives m r m' at h
      split at h
      · have henter : Below
            (Eval.enterClosure (Value.callClosed own fuel) fuel
              (.closure id name params body env) name params body env vs)
            (Eval.enterClosure (Value.call fuel) fuel
              (.closure id name params body env) name params body env vs) := by
          apply Below.bind (Below.refl _)
          intro _
          exact body.eval_below ih (Nat.le_refl fuel) _
        exact henter m r m' h
      · cases r <;> cases h
    | _ => exact Below.refl _

/-- An evaluation that leaves no frame behind ends as an evaluation does. -/
theorem Expr.evalClosed_below (e : Expr) (fuel : Nat) :
  Below (e.evalClosed own fuel) (e.evalTop fuel)
  := bounce_below (Value.callClosed_below fuel) (Nat.le_refl fuel)
    (e.eval_below (Value.callClosed_below fuel) (Nat.le_refl fuel) [])

/-- Evaluating a tree that leaves the frames that it enters, with calls that leave no frame
behind, restores the context. -/
theorem Expr.evalClosed_restoring {e : Expr} (he : e.Tidy) (fuel : Nat) :
  (e.evalClosed own fuel).Keeps (.restoring own) (Value.MadeOf .framed)
  := by
  have hR := Regime.restoring_lawful own
  have hcall := @Value.callClosed_restoring own fuel
  exact bounce_keeps hR hcall trivial fuel
    (Expr.eval_keeps hR hcall (Regime.restoring_evaluable own)
      (Value.callClosed_runsBuiltins fuel) fuel he fun _ h => absurd h List.not_mem_nil)

end closed

/-- Evaluating a tree leaves the machine with no function that enters or leaves frames. -/
theorem Expr.evalTop_framed {e : Expr} (he : e.isFramed = true) (fuel : Nat) :
  (e.evalTop fuel).Keeps .framed (Value.MadeOf .framed)
  := by
  have hR := Regime.framed_lawful
  have hcall := Value.call_keeps hR Regime.framed_evaluable (fun _ h => h) fuel
  exact bounce_keeps hR hcall trivial fuel
    (Expr.eval_keeps hR hcall Regime.framed_evaluable (Value.call_runsBuiltins fuel)
      fuel he fun _ h => absurd h List.not_mem_nil)

/-- Evaluating a tree drives the same execution before and after. -/
theorem Expr.evalTop_sameExecution (e : Expr) (fuel : Nat) :
  (e.evalTop fuel).Keeps (.everything Machine.SameExecution) fun _ => True
  := Regime.everything_evalTop (Machine.sameExecution_keeping rfl) e fuel

end Skein
