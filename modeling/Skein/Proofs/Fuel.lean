import Skein.Proofs.Ending

/-!
# More fuel

A computation that ends does so in the same way when it has more fuel.  Functions that call
others are said for any way to call them, so each of them is shown to respect every way to
compare computations that composition respects; calling and evaluating are then shown by
induction on the fuel.
-/

namespace Skein

open Run Trampoline

/-- A way to compare computations, and the fuel that they have, which composition respects. -/
structure Run.Congruence where
  rel {α : Type} : Run α → Run α → Prop
  fuel : Nat → Nat → Prop
  refl {α : Type} (act : Run α) : rel act act
  bind {α β : Type} {act act' : Run α} {k k' : α → Run β} :
    rel act act' → (∀ a, rel (k a) (k' a)) → rel (act >>= k) (act' >>= k')
  attempt {α : Type} {act act' : Run α} : rel act act' → rel act.attempt act'.attempt
  entering {α : Type} {act act' : Run α} (c : Context Value) :
    rel act act' → rel (entering c act) (Run.entering c act')
  outside {α : Type} {act act' : Run α} : rel act act' → rel (outside act) (Run.outside act')
  /-- Without fuel a computation stops. -/
  stopped {α : Type} {n : Nat} (hn : fuel 0 n) (act : Nat → Run α) (h : act 0 = throw .exhausted) :
    rel (throw .exhausted) (act n)
  succ {n n' : Nat} : fuel (n + 1) n' → ∃ k, n' = k + 1 ∧ fuel n k

namespace Run.Congruence

variable (C : Run.Congruence) {α β : Type}

/-- Ways to call functions are compared by what they do. -/
def Calls (call call' : Call) : Prop := ∀ f vs, C.rel (call f vs) (call' f vs)

/-- Computations for each element of a list. -/
theorem mapM {f f' : α → Run β} (h : ∀ a, C.rel (f a) (f' a)) (as : List α) :
  C.rel (as.mapM f) (as.mapM f')
  := by
  induction as with
  | nil =>
    rw [List.mapM_nil, List.mapM_nil]
    exact C.refl _
  | cons a as ih =>
    rw [List.mapM_cons, List.mapM_cons]
    apply C.bind (h a)
    intro b
    apply C.bind ih
    intro bs
    exact C.refl _

end Run.Congruence

variable {C : Run.Congruence} {call call' : Call} {n n' : Nat}

/-! ### The trampoline -/

namespace Trampoline

/-- Taking steps. -/
theorem force_congr (h : C.Calls call call') (hn : C.fuel n n') (v : Value) :
  C.rel (force call n v) (force call' n' v)
  := by
  induction n generalizing n' v with
  | zero => exact C.stopped hn (fun n => force call' n v) rfl
  | succ n ih =>
    obtain ⟨k, rfl, hk⟩ := C.succ hn
    cases v with
    | thunk id resume =>
      apply C.bind (C.refl _)
      intro _
      apply C.bind (h resume [])
      intro next
      exact ih hk next
    | _ => exact C.refl _

/-- Doing some work. -/
theorem perform_congr (h : C.Calls call call') (work : Work) :
  C.rel (perform call work) (perform call' work)
  := by
  cases work with
  | plain f => exact h f []
  | delivery snapshot f arg => exact C.entering snapshot (h f [arg])
  | resumption snapshot k arg =>
    apply C.bind
    · apply C.entering
      exact C.bind (C.refl _) fun _ => h k [arg]
    · intro next
      exact C.refl _

/-- Doing the work that waits. -/
theorem runWaiting_congr (h : C.Calls call call') (hn : C.fuel n n')
    (first : Option (Condition Value)) :
  C.rel (runWaiting call n first) (runWaiting call' n' first)
  := by
  induction n generalizing n' first with
  | zero => exact C.stopped hn (fun n => runWaiting call' n first) rfl
  | succ n ih =>
    obtain ⟨k, rfl, hk⟩ := C.succ hn
    apply C.bind (C.refl _)
    rintro (_ | work)
    · exact C.refl _
    · apply C.bind
      · apply C.attempt
        apply C.bind (C.refl _)
        intro _
        apply C.bind (perform_congr h work)
        intro v
        exact force_congr h hk v
      · intro result
        rcases first with _ | c <;> rcases result with c' | v <;> exact ih hk _

/-- A level of its own. -/
theorem bounce_congr (h : C.Calls call call') (hn : C.fuel n n') {start start' : Run Value}
    (hs : C.rel start start') :
  C.rel (bounce call n start) (bounce call' n' start')
  := by
  apply C.bind (C.refl _)
  intro _
  apply C.bind
  · apply C.attempt
    apply C.bind hs
    intro v
    exact force_congr h hn v
  · intro result
    apply C.bind (runWaiting_congr h hn none)
    intro late
    exact C.refl _

/-- Letting work wait, or doing it,. -/
theorem resume_congr (h : C.Calls call call') (hn : C.fuel n n') (work : Work) :
  C.rel (resume call n work) (resume call' n' work)
  := by
  apply C.bind (C.refl _)
  rintro (_ | _)
  · exact bounce_congr h hn (perform_congr h work)
  · exact C.refl _

/-- Starting a coroutine. -/
theorem start_congr (h : C.Calls call call') (hn : C.fuel n n')
    (coroutine resolve reject : Value) :
  C.rel (start call n coroutine resolve reject) (start call' n' coroutine resolve reject)
  := by
  apply C.bind (C.refl _)
  intro id
  apply C.bind (C.refl _)
  intro success
  apply C.bind (C.refl _)
  intro failure
  apply C.bind (C.refl _)
  intro context
  apply C.bind
  · apply C.entering
    apply bounce_congr h hn
    apply C.bind (C.attempt (h coroutine [success, failure]))
    rintro (c | v)
    · apply C.bind (C.refl _)
      intro state
      split
      · exact C.refl _
      · exact h failure [.condition c]
    · exact C.refl _
  · intro _
    exact C.refl _

end Trampoline

/-! ### Native functions -/

/-- Functions on atoms. -/
theorem AtomOp.apply_congr (h : C.Calls call call') (op : AtomOp) (vs : List Value) :
  C.rel (op.apply call vs) (op.apply call' vs)
  := by
  unfold AtomOp.apply
  dsimp only
  split
  · exact C.refl _
  · exact C.refl _
  · exact C.refl _
  · apply C.bind (C.refl _)
    intro location
    apply C.bind (C.refl _)
    intro old
    apply C.bind (h _ _)
    intro new
    exact C.refl _
  · exact C.refl _

/-- Functions for coroutines. -/
theorem CoroutineOp.apply_congr (h : C.Calls call call') (hn : C.fuel n n') (op : CoroutineOp)
    (vs : List Value) :
  C.rel (op.apply call n vs) (op.apply call' n' vs)
  := by
  unfold CoroutineOp.apply
  dsimp only
  split
  · apply C.bind (C.refl _)
    intro _
    apply C.bind (C.refl _)
    intro _
    apply C.bind (C.refl _)
    intro _
    apply C.bind (start_congr h hn _ _ _)
    intro _
    exact C.refl _
  · exact C.refl _
  · exact bounce_congr h hn (C.refl _)
  · exact h _ _
  · exact h _ _
  all_goals exact C.refl _

/-- Primitives. -/
theorem Primitive.apply_congr (h : C.Calls call call') (hn : C.fuel n n') (p : Primitive)
    (vs : List Value) :
  C.rel (p.apply call n vs) (p.apply call' n' vs)
  := by
  apply C.bind (C.refl _)
  intro _
  cases p with
  | atom op => exact AtomOp.apply_congr h op vs
  | coroutine op => exact CoroutineOp.apply_congr h hn op vs
  | _ => exact C.refl _

/-- Functions of the virtual clock. -/
theorem TimerOp.apply_congr (h : C.Calls call call') (op : TimerOp) (vs : List Value) :
  C.rel (op.apply call vs) (op.apply call' vs)
  := by
  apply C.bind (C.refl _)
  intro _
  split
  · exact C.refl _
  · exact C.refl _
  · apply C.bind (C.refl _)
    intro m
    exact h _ _
  · exact C.refl _

namespace Continuation

/-- Continuing a suspended call. -/
theorem continueWith_congr (h : C.Calls call call') (hn : C.fuel n n')
    (snapshot : Context Value) (k v : Value) :
  C.rel (continueWith call n snapshot k v) (continueWith call' n' snapshot k v)
  := by
  apply C.bind (C.refl _)
  intro _
  exact resume_congr h hn _

/-- Continuing with a value. -/
theorem succeed_congr (h : C.Calls call call') (hn : C.fuel n n') (snapshot : Context Value)
    (k : Value) (vs : List Value) :
  C.rel (succeed call n snapshot k vs) (succeed call' n' snapshot k vs)
  := by
  apply C.bind (C.refl _)
  intro _
  exact continueWith_congr h hn _ _ _

/-- Continuing with an error. -/
theorem fail_congr (h : C.Calls call call') (hn : C.fuel n n') (snapshot : Context Value)
    (k : Value) (vs : List Value) :
  C.rel (fail call n snapshot k vs) (fail call' n' snapshot k vs)
  := by
  apply C.bind (C.refl _)
  intro _
  apply C.bind (C.refl _)
  intro c
  exact continueWith_congr h hn _ _ _

/-- Delivering a result. -/
theorem settle_congr (h : C.Calls call call') (hn : C.fuel n n') (execution : Nat)
    (outcome : Outcome) (target : Value) (vs : List Value) :
  C.rel (settle call n execution outcome target vs)
    (settle call' n' execution outcome target vs)
  := by
  apply C.bind (C.refl _)
  intro _
  apply C.bind (C.refl _)
  intro _
  apply C.bind (C.refl _)
  intro snapshot
  exact resume_congr h hn _

end Continuation

namespace Instrument

/-- Resuming pieces of work. -/
theorem resumeAll_congr (h : C.Calls call call') (hn : C.fuel n n') (works : List Script) :
  C.rel (resumeAll call n works) (resumeAll call' n' works)
  := by
  induction works with
  | nil => exact C.refl _
  | cons work rest ih =>
    apply C.bind (C.refl _)
    intro f
    apply C.bind (C.attempt (resume_congr h hn _))
    intro result
    apply C.bind (C.refl _)
    intro line
    apply C.bind (C.refl _)
    intro _
    exact ih

/-- Doing pieces of work in levels of their own. -/
theorem nestAll_congr (h : C.Calls call call') (hn : C.fuel n n') (works : List Script) :
  C.rel (nestAll call n works) (nestAll call' n' works)
  := by
  induction works with
  | nil => exact C.refl _
  | cons work rest ih =>
    apply C.bind (C.refl _)
    intro f
    apply C.bind (C.attempt (bounce_congr h hn (h f [])))
    intro result
    apply C.bind (C.refl _)
    intro line
    apply C.bind (C.refl _)
    intro _
    exact ih

/-- Doing a piece of work. -/
theorem runScript_congr (h : C.Calls call call') (hn : C.fuel n n') (work : Script) :
  C.rel (runScript call n work) (runScript call' n' work)
  := by
  obtain ⟨label, resumed, nested, result⟩ := work
  apply C.bind (C.refl _)
  intro _
  apply C.bind (resumeAll_congr h hn resumed)
  intro _
  apply C.bind (nestAll_congr h hn nested)
  intro _
  cases result with
  | unwind work =>
    apply C.bind (C.refl _)
    intro v
    exact bounce_congr h hn (C.refl _)
  | _ => exact C.refl _

/-- Calling the operation of the stage. -/
theorem operate_congr (h : C.Calls call call') (vs : List Value) :
  C.rel (operate call vs) (operate call' vs)
  := by
  unfold operate
  split
  · apply C.bind (C.refl _)
    intro delivery
    dsimp only
    split
    · exact C.refl _
    · apply C.bind (h _ _)
      intro _
      exact C.refl _
  · exact C.refl _

/-- Instruments. -/
theorem apply_congr (h : C.Calls call call') (hn : C.fuel n n') (i : Instrument)
    (vs : List Value) :
  C.rel (i.apply call n vs) (i.apply call' n' vs)
  := by
  cases i with
  | perform work => exact runScript_congr h hn work
  | operation => exact operate_congr h vs
  | _ => exact C.refl _

/-- Making the deliveries that are late. -/
theorem deliverAll_congr (h : C.Calls call call') (hn : C.fuel n n') :
  C.rel (deliverAll call n) (deliverAll call' n')
  := by
  induction n generalizing n' with
  | zero => exact C.stopped hn (fun n => deliverAll call' n) rfl
  | succ n ih =>
    obtain ⟨k, rfl, hk⟩ := C.succ hn
    apply C.bind (C.refl _)
    rintro (_ | ⟨target, v⟩)
    · exact C.refl _
    · apply C.bind (C.outside (h target [v]))
      intro _
      exact ih hk

/-- Observing a coroutine. -/
theorem rehearse_congr (h : C.Calls call call') (hn : C.fuel n n') (coroutine : Value) :
  C.rel (rehearse call n coroutine) (rehearse call' n' coroutine)
  := by
  apply C.bind (C.refl _)
  intro resolve
  apply C.bind (C.refl _)
  intro reject
  apply C.bind (start_congr h hn _ _ _)
  intro _
  exact deliverAll_congr h hn

end Instrument

/-- Native functions. -/
theorem Native.apply_congr (h : C.Calls call call') (hn : C.fuel n n') (f : Native Value)
    (vs : List Value) :
  C.rel (f.apply call n vs) (f.apply call' n' vs)
  := by
  cases f with
  | primitive p => exact Primitive.apply_congr h hn p vs
  | awaitContinuation id snapshot k => exact Continuation.succeed_congr h hn snapshot k vs
  | awaitFailure id snapshot k => exact Continuation.fail_congr h hn snapshot k vs
  | settle id execution outcome target =>
    exact Continuation.settle_congr h hn execution outcome target vs
  | inContext id snapshot g =>
    apply C.bind (C.entering snapshot (h g []))
    intro next
    exact C.refl _
  | timer op => exact TimerOp.apply_congr h op vs
  | instrument id i => exact Instrument.apply_congr h hn i vs
  | builtin b => exact C.refl _
  | sentinel op => exact C.refl _

/-! ### Evaluation -/

namespace Eval

variable {eval eval' : Env → Expr → Run Value}

/-- Loops. -/
theorem repeatLoop_congr {body body' : Env → Run TailResult}
    (h : ∀ env, C.rel (body env) (body' env)) (enter : List Value → Env) (hn : C.fuel n n')
    (env : Env) :
  C.rel (repeatLoop body enter n env) (repeatLoop body' enter n' env)
  := by
  induction n generalizing n' env with
  | zero => exact C.stopped hn (fun n => repeatLoop body' enter n env) rfl
  | succ n ih =>
    obtain ⟨k, rfl, hk⟩ := C.succ hn
    apply C.bind (h env)
    rintro (v | vs)
    · exact C.refl _
    · exact ih hk _

/-- Bindings. -/
theorem bindAll_congr (h : ∀ env e, C.rel (eval env e) (eval' env e)) (env : Env)
    (bindings : List (Symbol × Expr)) :
  C.rel (bindAll eval env bindings) (bindAll eval' env bindings)
  := by
  induction bindings generalizing env with
  | nil => exact C.refl _
  | cons b rest ih =>
    apply C.bind (h env b.2)
    intro v
    exact ih _

/-- Sequences. -/
theorem runAll_congr (h : ∀ env e, C.rel (eval env e) (eval' env e)) (env : Env)
    (es : List Expr) :
  C.rel (runAll eval env es) (runAll eval' env es)
  := by
  induction es with
  | nil => exact C.refl _
  | cons e es ih =>
    apply C.bind (h env e)
    intro _
    exact ih

/-- Clauses. -/
theorem selectClause_congr (h : ∀ env e, C.rel (eval env e) (eval' env e)) (env : Env)
    (clauses : List (Clause Expr)) (c : Condition Value) :
  C.rel (selectClause eval env clauses c) (selectClause eval' env clauses c)
  := by
  unfold selectClause
  split
  · exact h _ _
  · exact C.refl _

/-- Protected bodies. -/
theorem protect_congr (h : ∀ env e, C.rel (eval env e) (eval' env e)) (env : Env) (body : Expr)
    (clauses : List (Clause Expr)) (cleanup : Option Expr) :
  C.rel (protect eval env body clauses cleanup) (protect eval' env body clauses cleanup)
  := by
  apply C.bind
  · apply C.attempt
    apply C.bind (C.attempt (h env body))
    rintro (c | v)
    · exact selectClause_congr h env clauses c
    · exact C.refl _
  · intro result
    cases cleanup with
    | none => exact C.refl _
    | some e =>
      apply C.bind (h env e)
      intro _
      exact C.refl _

end Eval

/-- Evaluation in the tail of a loop. -/
theorem Expr.tail_congr (h : C.Calls call call') (hn : C.fuel n n') (env : Env) (e : Expr) :
  C.rel (e.tail call n env) (e.tail call' n' env)
  := by
  induction n generalizing n' env e with
  | zero => exact C.stopped hn (fun n => e.tail call' n env) rfl
  | succ n ih =>
    obtain ⟨k, rfl, hk⟩ := C.succ hn
    have heval : ∀ (env : Env) (e : Expr),
        C.rel (do (← e.tail call n env).toValue) (do (← e.tail call' k env).toValue) :=
      fun env e => C.bind (ih hk env e) fun _ => C.refl _
    cases e with
    | call f args =>
      apply C.bind (heval env f)
      intro g
      apply C.bind (C.mapM (heval env) args)
      intro vs
      apply C.bind (h g vs)
      intro _
      exact C.refl _
    | cond test yes no =>
      apply C.bind (heval env test)
      intro v
      exact ih hk env _
    | seq es =>
      unfold Expr.tail
      dsimp only
      split
      · exact C.refl _
      · apply C.bind (Eval.runAll_congr heval env _)
        intro _
        exact ih hk env _
    | bind bindings body =>
      apply C.bind (Eval.bindAll_congr heval env bindings)
      intro inner
      exact ih hk inner body
    | loop bindings body =>
      apply C.bind (Eval.bindAll_congr heval env bindings)
      intro first
      exact Eval.repeatLoop_congr (fun env => ih hk env body) _ hk first
    | recur args =>
      apply C.bind (C.mapM (heval env) args)
      intro vs
      exact C.refl _
    | protect body clauses cleanup =>
      apply C.bind (Eval.protect_congr heval env body clauses cleanup)
      intro v
      exact C.refl _
    | define x e =>
      apply C.bind (heval env e)
      intro v
      exact C.refl _
    | literal d => exact C.refl _
    | builtin b => exact C.refl _
    | var x => exact C.refl _
    | lambda name params body => exact C.refl _

/-- Evaluation. -/
theorem Expr.eval_congr (h : C.Calls call call') (hn : C.fuel n n') (env : Env) (e : Expr) :
  C.rel (e.eval call n env) (e.eval call' n' env)
  := by
  apply C.bind (e.tail_congr h hn env)
  intro _
  exact C.refl _

/-- Calls. -/
theorem Value.call_congr (hn : C.fuel n n') :
  C.Calls (Value.call n) (Value.call n')
  := by
  induction n generalizing n' with
  | zero =>
    intro f vs
    exact C.stopped hn (fun n => Value.call n f vs) rfl
  | succ n ih =>
    obtain ⟨k, rfl, hk⟩ := C.succ hn
    intro f vs
    cases f with
    | native g => exact g.apply_congr (ih hk) hk vs
    | closure id name params body env =>
      apply C.bind (C.refl _)
      intro _
      exact body.eval_congr (ih hk) hk _
    | _ => exact C.refl _

/-! ### Below -/

/-- Computations that are below others. -/
def Run.below : Run.Congruence where
  rel := Below
  fuel n n' := n ≤ n'
  refl := .refl
  bind := .bind
  attempt := .attempt
  entering := .entering
  outside := .outside
  stopped _ _ _ := .exhausted _
  succ hn := by
    obtain ⟨k, rfl⟩ := Nat.exists_eq_add_of_lt hn
    exact ⟨_, rfl, Nat.le_add_right _ k⟩

/-- A way to call functions is below another one. -/
def Trampoline.Call.Below (call call' : Call) : Prop := below.Calls call call'

/-- Taking steps with more fuel. -/
theorem Trampoline.force_below (h : Call.Below call call') (hn : n ≤ n') (v : Value) :
  Below (force call n v) (force call' n' v)
  := force_congr (C := below) h hn v

/-- Doing the work that waits with more fuel. -/
theorem Trampoline.runWaiting_below (h : Call.Below call call') (hn : n ≤ n')
    (first : Option (Condition Value)) :
  Below (runWaiting call n first) (runWaiting call' n' first)
  := runWaiting_congr (C := below) h hn first

/-- A level of its own with more fuel. -/
theorem Trampoline.bounce_below (h : Call.Below call call') (hn : n ≤ n')
    {start start' : Run Value} (hs : Below start start') :
  Below (bounce call n start) (bounce call' n' start')
  := bounce_congr (C := below) h hn hs

/-- Native functions with more fuel. -/
theorem Native.apply_below (h : Call.Below call call') (hn : n ≤ n') (f : Native Value)
    (vs : List Value) :
  Below (f.apply call n vs) (f.apply call' n' vs)
  := Native.apply_congr (C := below) h hn f vs

/-- Evaluation in the tail of a loop with more fuel. -/
theorem Expr.tail_below (h : Call.Below call call') (hn : n ≤ n') (env : Env) (e : Expr) :
  Below (e.tail call n env) (e.tail call' n' env)
  := Expr.tail_congr (C := below) h hn env e

/-- Evaluation with more fuel. -/
theorem Expr.eval_below (h : Call.Below call call') (hn : n ≤ n') (env : Env) (e : Expr) :
  Below (e.eval call n env) (e.eval call' n' env)
  := Expr.eval_congr (C := below) h hn env e

/-- Calls with more fuel. -/
theorem Value.call_below (hn : n ≤ n') :
  Call.Below (Value.call n) (Value.call n')
  := Value.call_congr (C := below) hn

end Skein
