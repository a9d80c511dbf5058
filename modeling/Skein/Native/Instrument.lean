import Skein.Trampoline

/-!
# Instruments

Functions by which somebody outside observes a running program: they write what happens
to the journal of the machine.
-/

namespace Skein.Instrument

open Trampoline (Call)

/-- An instrument as a function. -/
def toValue (i : Instrument) : Run Value := Run.native (.instrument · i)

/-- A thunk of an instrument. -/
def pending (i : Instrument) : Run Value := do Run.thunk (← i.toValue)

/-- A chain of `n` thunks that ends in `:liftoff`. -/
def steps : Nat → Run Value
  | 0 => return .keyword "liftoff"
  | n + 1 => pending (.countdown n)

/-- Resume some pieces of work, and note what each resumption gives. -/
def resumeAll (call : Call) (fuel : Nat) : List Script → Run Unit
  | [] => return
  | work :: rest => do
    let f ← (perform work).toValue
    let result ← Run.attempt (Trampoline.resume call fuel (.plain f))
    Run.record (.resumed work.label (← Run.answer result))
    resumeAll call fuel rest

/-- Do some pieces of work in levels of their own, and note what each comes to. -/
def nestAll (call : Call) (fuel : Nat) : List Script → Run Unit
  | [] => return
  | work :: rest => do
    let f ← (perform work).toValue
    let result ← Run.attempt (Trampoline.bounce call fuel (call f []))
    Run.record (.nested work.label (← Run.answer result))
    nestAll call fuel rest

/-- Do a piece of work. -/
def runScript (call : Call) (fuel : Nat) : Script → Run Value
  | .mk label resumed nested result => do
    Run.record (.logged label)
    resumeAll call fuel resumed
    nestAll call fuel nested
    match result with
    | .thunk work => pending (.perform work)
    | .unwind work =>
      let v ← pending (.perform work)
      Trampoline.unwind call fuel v
    | .countdown n => steps n
    | .error kind message => Run.raise (.ofName kind) message
    | .value d => return .ofDatum d

/-- Do a piece of work in a level of its own. -/
def runNested (call : Call) (fuel : Nat) (work : Script) : Run Value :=
  Trampoline.bounce call fuel (runScript call fuel work)

/-- Resume a piece of work. -/
def runResumed (call : Call) (fuel : Nat) (work : Script) : Run Value := do
  let f ← (perform work).toValue
  Trampoline.resume call fuel (.plain f)

/-- Unwind a chain of `n + 1` thunks that look up a dynamic binding, in a context. -/
def probeIn (call : Call) (fuel : Nat) (snapshot : Context Value) (x : Symbol) (n : Nat) :
    Run Value := do
  let first ← pending (.probe x n)
  let v ← Trampoline.inContext snapshot first
  Trampoline.unwind call fuel v

/-! ### The stage -/

/-- Note the arguments of a call of the operation; what the call delivers. -/
def request (args : List Value) : Run Delivery := modifyGet fun m =>
  (m.stage.deliveries m.stage.requests.length,
    { m with stage := { m.stage with requests := args :: m.stage.requests } })

/-- Leave a continuation to be called with an argument later. -/
def postpone (k v : Value) : Run Unit := modify fun m =>
  { m with stage := { m.stage with pending := m.stage.pending ++ [(k, v)] } }

/-- Take the first continuation that is still to be called, with its argument. -/
def takePending : Run (Option (Value × Value)) := modifyGet fun m =>
  match m.stage.pending with
  | [] => (none, m)
  | next :: rest => (some next, { m with stage := { m.stage with pending := rest } })

/-- The continuation that gets a result and what it is called with, of a continuation for
values and one for errors. -/
def addressee (k f : Value) : Except (Condition Value) Value → Value × Value
  | .ok v => (k, v)
  | .error c => (f, .condition c)

/-- Call the operation: the last two arguments are its continuations. -/
def operate (call : Call) (args : List Value) : Run Value :=
  match args.reverse with
  | f :: k :: rest => do
    let delivery ← request rest.reverse
    let (target, v) := addressee k f delivery.result
    if delivery.late then postpone target v
    else
      let _ ← call target [v]
    return .nil
  | _ => Run.raise .arityError "operation: expected two continuations"

/-- The value of an awaited call of the operation when nothing is suspended. -/
def answerWith (args : List Value) : Run Value :=
  match args with
  | .native (.instrument _ .operation) :: rest => do
    let delivery ← request rest
    Run.changeStateIn (← Run.capture) .running
    Run.ofExcept delivery.result
  | _ => throw (.fault "the stage answers for its own operation only")

/-- Receive a result. -/
def receiveResult (outcome : Outcome) (v : Value) : Run Value := do
  modify fun m => { m with stage := { m.stage with results := (outcome, v) :: m.stage.results } }
  return .nil

/-- Call the continuations that are still to be called outside of every level of the
trampoline, the first one first, until none is left. -/
def deliverAll (call : Call) : (fuel : Nat) → Run Unit
  | 0 => throw .exhausted
  | fuel + 1 => do
    match ← takePending with
    | none => return
    | some (k, v) =>
      let _ ← Run.outside (call k [v])
      deliverAll call fuel

/-- Start a coroutine whose results are received by the stage, and then make the deliveries
that are late. -/
def rehearse (call : Call) (fuel : Nat) (coroutine : Value) : Run Unit := do
  let resolve ← toValue (.receive .completed)
  let reject ← toValue (.receive .failed)
  let _ ← Trampoline.start call fuel coroutine resolve reject
  deliverAll call fuel

/-- Apply an instrument. -/
def apply (i : Instrument) (call : Call) (fuel : Nat) (args : List Value) : Run Value :=
  match i with
  | .record outcome => do
    Run.record (.delivered outcome (← Run.shown ((args.head?).getD .nil)))
    return .nil
  | .probe x left => do
    match (← Run.capture).lookup? x with
    | some v => Run.record (.seen (some (← Run.shown v)))
    | none => Run.record (.seen none)
    if left = 0 then return .nil else pending (.probe x (left - 1))
  | .countdown left => steps left
  | .perform work => runScript call fuel work
  | .operation => operate call args
  | .answer => answerWith args
  | .receive outcome => receiveResult outcome ((args.head?).getD .nil)

end Skein.Instrument
