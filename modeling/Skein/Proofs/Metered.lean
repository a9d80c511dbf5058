import Skein.Proofs.Ending

/-!
# Metered runs

The evaluator, said for any way `count` to count a step of a level.  With the count of the machine
it is the evaluator itself.  With a meter, each level counts its steps whether steps are limited or
not, and a level that is about to take more steps than it may stops the whole program, which no
part of the program can catch.  So a metered run that does not stop is the run of a program in
which every level needs no more steps than it may take.
-/

namespace Skein

open Trampoline (Call)

variable {count : Run Unit}

/-! ### Counting steps -/

/-- The condition that a level raises when it is refused a step. -/
def Run.tooManySteps (limit : Nat) : Condition Value :=
  ⟨.trampolineLimit, "trampoline exceeded step limit (" ++ toString limit ++ ")", .nil⟩

/-- What stops a program in which a level needs more steps than it may take. -/
def Run.overrun : Stop := .fault "a level needs more steps than it may take"

/-- Count a step of the innermost level, and refuse it when the level has taken `limit` steps. -/
def Run.countTo (limit : Nat) (refusal : Stop) : Run Unit := fun m =>
  match m.levels with
  | ⟨queue, steps⟩ :: rest =>
    if steps < limit then .ok () { m with levels := ⟨queue, steps + 1⟩ :: rest }
    else .error refusal { m with levels := ⟨queue, steps + 1⟩ :: rest }
  | [] => .ok () m

/-- Count a step of the innermost level; the whole program stops when the level has taken `limit`
steps. -/
def Run.meter (limit : Nat) : Run Unit := countTo limit overrun

/-! ### The trampoline -/

namespace Trampoline

/-- Take steps until a value comes that is no thunk. -/
def forceBy (count : Run Unit) (call : Call) : (fuel : Nat) → Value → Run Value
  | 0, _ => throw .exhausted
  | fuel + 1, v =>
    match v with
    | .thunk _ resume => do
      count
      let next ← call resume []
      forceBy count call fuel next
    | v => return v

/-- Do the work that waits in the innermost level. -/
def runWaitingBy (count : Run Unit) (call : Call) :
    (fuel : Nat) → (first : Option (Condition Value)) → Run (Option (Condition Value))
  | 0, _ => throw .exhausted
  | fuel + 1, first => do
    match ← Run.dequeue with
    | none => return first
    | some work =>
      let result ← Run.attempt do
        count
        let v ← perform call work
        forceBy count call fuel v
      match first, result with
      | none, .error c => runWaitingBy count call fuel (some c)
      | first, _ => runWaitingBy count call fuel first

/-- What a level comes to that has been opened for a computation. -/
def inLevelBy (count : Run Unit) (call : Call) (fuel : Nat) (start : Run Value) :
    Run (Ended Value) := do
  let result ← (start >>= forceBy count call fuel).attempt
  let late ← runWaitingBy count call fuel none
  return settled result late

/-- Run a computation in a level of its own. -/
def bounceBy (count : Run Unit) (call : Call) (fuel : Nat) (start : Run Value) : Run Value := do
  Run.openLevel
  let result ← inLevelBy count call fuel start
  Run.closeLevel
  Run.ofExcept result

/-- Let work wait in the innermost level; without one, do it now in a level of its own. -/
def resumeBy (count : Run Unit) (call : Call) (fuel : Nat) (work : Work) : Run Value := do
  if ← Run.enqueue work then return .nil
  else bounceBy count call fuel (perform call work)

/-- Start a coroutine. -/
def startBy (count : Run Unit) (call : Call) (fuel : Nat) (coroutine resolve reject : Value) :
    Run Nat := do
  let id ← Run.newExecution
  let success ← Run.native (.settle · id .completed resolve)
  let failure ← Run.native (.settle · id .failed reject)
  let snapshot := (← Run.capture).driving id
  let _ ← Run.entering snapshot <| bounceBy count call fuel
    (startWith call id coroutine success failure)
  return id

end Trampoline

open Trampoline

/-! ### Native functions that open levels -/

/-- Apply a function for coroutines. -/
def CoroutineOp.applyBy (op : CoroutineOp) (count : Run Unit) (call : Call) (fuel : Nat)
    (args : List Value) : Run Value :=
  match op, args with
  | .run, [coroutine, resolve, reject] => do
    Argument.checkFunction op.name coroutine
    Argument.checkFunction op.name resolve
    Argument.checkFunction op.name reject
    return .execution (← startBy count call fuel coroutine resolve reject)
  | .unwind, [v] => bounceBy count call fuel (pure v)
  | op, args => op.apply call fuel args

/-- Apply a primitive. -/
def Primitive.applyBy (p : Primitive) (count : Run Unit) (call : Call) (fuel : Nat)
    (args : List Value) : Run Value :=
  match p with
  | coroutine op => do
    Run.checkArity p.arity p.name args
    op.applyBy count call fuel args
  | p => p.apply call fuel args

namespace Continuation

/-- Let the work of a suspended call wait, or do it. -/
def continueBy (count : Run Unit) (call : Call) (fuel : Nat) (snapshot : Context Value)
    (k v : Value) : Run Value := do
  Run.changeStateIn snapshot .resumed
  resumeBy count call fuel (.resumption snapshot k v)

/-- Continue a suspended call with a value. -/
def succeedBy (count : Run Unit) (call : Call) (fuel : Nat) (snapshot : Context Value) (k : Value)
    (args : List Value) : Run Value := do
  Run.checkArity (.exactly 1) "await continuation" args
  continueBy count call fuel snapshot k ((args.head?).getD .nil)

/-- Continue a suspended call with an error. -/
def failBy (count : Run Unit) (call : Call) (fuel : Nat) (snapshot : Context Value) (k : Value)
    (args : List Value) : Run Value := do
  Run.checkArity (.exactly 1) "await failure" args
  let c ← Run.thrown ((args.head?).getD .nil)
  continueBy count call fuel snapshot k (.condition c)

/-- Deliver the result of a coroutine. -/
def settleBy (count : Run Unit) (call : Call) (fuel : Nat) (execution : Nat) (outcome : Outcome)
    (target : Value) (args : List Value) : Run Value := do
  Run.checkArity (.exactly 1) outcome.continuationName args
  let _ ← Run.finish execution outcome
  let snapshot ← Run.capture
  resumeBy count call fuel (.delivery snapshot target ((args.head?).getD .nil))

end Continuation

namespace Instrument

/-- Resume some pieces of work, and note what each resumption gives. -/
def resumeAllBy (count : Run Unit) (call : Call) (fuel : Nat) : List Script → Run Unit
  | [] => return
  | work :: rest => do
    let f ← (perform work).toValue
    let result ← Run.attempt (resumeBy count call fuel (.plain f))
    Run.record (.resumed work.label (← Run.answer result))
    resumeAllBy count call fuel rest

/-- Do some pieces of work in levels of their own, and note what each comes to. -/
def nestAllBy (count : Run Unit) (call : Call) (fuel : Nat) : List Script → Run Unit
  | [] => return
  | work :: rest => do
    let f ← (perform work).toValue
    let result ← Run.attempt (bounceBy count call fuel (call f []))
    Run.record (.nested work.label (← Run.answer result))
    nestAllBy count call fuel rest

/-- Do a piece of work. -/
def runScriptBy (count : Run Unit) (call : Call) (fuel : Nat) : Script → Run Value
  | .mk label resumed nested result => do
    Run.record (.logged label)
    resumeAllBy count call fuel resumed
    nestAllBy count call fuel nested
    match result with
    | .thunk work => pending (.perform work)
    | .unwind work =>
      let v ← pending (.perform work)
      bounceBy count call fuel (pure v)
    | .countdown n => steps n
    | .error kind message => Run.raise (.ofName kind) message
    | .value d => return .ofDatum d

/-- Apply an instrument. -/
def applyBy (i : Instrument) (count : Run Unit) (call : Call) (fuel : Nat) (args : List Value) :
    Run Value :=
  match i with
  | perform work => runScriptBy count call fuel work
  | i => i.apply call fuel args

end Instrument

/-- Apply a native function. -/
def Native.applyBy (f : Native Value) (count : Run Unit) (call : Call) (fuel : Nat)
    (args : List Value) : Run Value :=
  match f with
  | primitive p => p.applyBy count call fuel args
  | awaitContinuation _ snapshot k => Continuation.succeedBy count call fuel snapshot k args
  | awaitFailure _ snapshot k => Continuation.failBy count call fuel snapshot k args
  | settle _ execution outcome target =>
    Continuation.settleBy count call fuel execution outcome target args
  | instrument _ i => i.applyBy count call fuel args
  | f => f.apply call fuel args

/-- Call a value. -/
def Value.callBy (count : Run Unit) : (fuel : Nat) → Call
  | 0, _, _ => throw .exhausted
  | fuel + 1, .native g, args => g.applyBy count (callBy count fuel) fuel args
  | fuel + 1, .closure id name params body env, args =>
    Eval.enterClosure (callBy count fuel) fuel (.closure id name params body env) name params body
      env args
  | _ + 1, f, _ => do
    Run.raise .typeError ("cannot call a " ++ f.typeName ++ ": " ++ (← Run.textOf f))

/-! ### The count of the machine -/

namespace Trampoline

variable (call : Call) (fuel : Nat)

/-- Taking steps. -/
theorem forceBy_step (v : Value) :
  forceBy Run.step call fuel v = force call fuel v
  := by
  induction fuel generalizing v with
  | zero => rfl
  | succ fuel ih =>
    cases v with
    | thunk id f =>
      change (Run.step >>= fun _ => call f [] >>= forceBy Run.step call fuel) =
        (Run.step >>= fun _ => call f [] >>= force call fuel)
      rw [funext ih]
    | _ => rfl

/-- Doing the work that waits. -/
theorem runWaitingBy_step (first : Option (Condition Value)) :
  runWaitingBy Run.step call fuel first = runWaiting call fuel first
  := by
  induction fuel generalizing first with
  | zero => rfl
  | succ fuel ih =>
    unfold runWaitingBy runWaiting
    rewrite [funext ih, funext (forceBy_step call fuel)]
    rfl

/-- A level of its own. -/
theorem bounceBy_step (start : Run Value) :
  bounceBy Run.step call fuel start = bounce call fuel start
  := by
  funext m
  rw [bounce_eq]
  have hlevel : inLevelBy Run.step call fuel start = inLevel call fuel start := by
    rw [inLevelBy, inLevel, funext (forceBy_step call fuel), runWaitingBy_step]
  rw [bounceBy, hlevel]
  rfl

/-- Letting work wait, or doing it. -/
theorem resumeBy_step (work : Work) :
  resumeBy Run.step call fuel work = resume call fuel work
  := by
  rw [resumeBy, bounceBy_step]
  rfl

/-- Starting a coroutine. -/
theorem startBy_step (coroutine resolve reject : Value) :
  startBy Run.step call fuel coroutine resolve reject = start call fuel coroutine resolve reject
  := by
  unfold startBy
  simp only [bounceBy_step]
  rfl

end Trampoline

section natives

variable (call : Call) (fuel : Nat) (args : List Value)

/-- Functions for coroutines. -/
theorem CoroutineOp.applyBy_step (op : CoroutineOp) :
  op.applyBy Run.step call fuel args = op.apply call fuel args
  := by
  unfold applyBy
  split
  · rw [startBy_step]
    rfl
  · rw [bounceBy_step]
    rfl
  · rfl

/-- Primitives. -/
theorem Primitive.applyBy_step (p : Primitive) :
  p.applyBy Run.step call fuel args = p.apply call fuel args
  := by
  cases p with
  | coroutine op =>
    rw [applyBy, CoroutineOp.applyBy_step]
    rfl
  | _ => rfl

namespace Continuation

/-- Continuing a suspended call. -/
theorem continueBy_step (snapshot : Context Value) (k v : Value) :
  continueBy Run.step call fuel snapshot k v = continueWith call fuel snapshot k v
  := by
  rw [continueBy, resumeBy_step]
  rfl

/-- Continuing with a value. -/
theorem succeedBy_step (snapshot : Context Value) (k : Value) :
  succeedBy Run.step call fuel snapshot k args = succeed call fuel snapshot k args
  := by
  rw [succeedBy, continueBy_step]
  rfl

/-- Continuing with an error. -/
theorem failBy_step (snapshot : Context Value) (k : Value) :
  failBy Run.step call fuel snapshot k args = fail call fuel snapshot k args
  := by
  unfold failBy
  simp only [continueBy_step]
  rfl

/-- Delivering a result. -/
theorem settleBy_step (execution : Nat) (outcome : Outcome) (target : Value) :
  settleBy Run.step call fuel execution outcome target args =
    settle call fuel execution outcome target args
  := by
  unfold settleBy
  simp only [resumeBy_step]
  rfl

end Continuation

namespace Instrument

/-- Resuming pieces of work. -/
theorem resumeAllBy_step (works : List Script) :
  resumeAllBy Run.step call fuel works = resumeAll call fuel works
  := by
  induction works with
  | nil => rfl
  | cons work rest ih =>
    unfold resumeAllBy resumeAll
    simp only [ih, resumeBy_step]

/-- Doing pieces of work in levels of their own. -/
theorem nestAllBy_step (works : List Script) :
  nestAllBy Run.step call fuel works = nestAll call fuel works
  := by
  induction works with
  | nil => rfl
  | cons work rest ih =>
    unfold nestAllBy nestAll
    simp only [ih, bounceBy_step]

/-- Doing a piece of work. -/
theorem runScriptBy_step (work : Script) :
  runScriptBy Run.step call fuel work = runScript call fuel work
  := by
  obtain ⟨label, resumed, nested, result⟩ := work
  unfold runScriptBy
  simp only [resumeAllBy_step, nestAllBy_step, bounceBy_step]
  rfl

/-- Instruments. -/
theorem applyBy_step (i : Instrument) :
  i.applyBy Run.step call fuel args = i.apply call fuel args
  := by
  cases i with
  | perform work => exact runScriptBy_step call fuel work
  | _ => rfl

end Instrument

/-- Native functions. -/
theorem Native.applyBy_step (f : Native Value) :
  f.applyBy Run.step call fuel args = f.apply call fuel args
  := by
  cases f with
  | primitive p => exact p.applyBy_step call fuel args
  | awaitContinuation id snapshot k => exact Continuation.succeedBy_step call fuel args snapshot k
  | awaitFailure id snapshot k => exact Continuation.failBy_step call fuel args snapshot k
  | settle id execution outcome target =>
    exact Continuation.settleBy_step call fuel args execution outcome target
  | instrument id i => exact i.applyBy_step call fuel args
  | _ => rfl

/-- With the count of the machine, values are called as they are. -/
theorem Value.callBy_step :
  Value.callBy Run.step = Value.call
  := by
  funext fuel
  induction fuel with
  | zero => rfl
  | succ fuel ih =>
    funext f args
    cases f with
    | native g =>
      rw [callBy, ih, Native.applyBy_step]
      rfl
    | closure id name params body env =>
      rw [callBy, ih]
      rfl
    | _ => rfl

end natives

end Skein
