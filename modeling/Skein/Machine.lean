import Skein.Value.Text

/-!
# Machines

The state of a running program and the computations on it.  A computation changes the
machine, and gives a value or stops: with a condition, which the program can catch, with
a fault, which it cannot, or because it ran out of fuel.  The machine is kept when a
computation stops.
-/

namespace Skein

/-- Work that waits in a level of the trampoline. -/
inductive Work where
  /-- Call a function without arguments. -/
  | plain (f : Value)
  /-- Call a function with one argument in a context. -/
  | delivery (snapshot : Context Value) (f arg : Value)
  /-- Call a continuation with one argument in the context of its suspension, which is
  also the context of the thunks that come of it. -/
  | resumption (snapshot : Context Value) (k arg : Value)

/-- A level of the trampoline: the work that waits in it, the first item first, and the
steps that it has taken while steps were limited. -/
structure Level where
  queue : List Work
  steps : Nat

/-- A call that waits for a time of the virtual clock. -/
structure Timer where
  deadline : Nat
  /-- The place of the timer in the order in which timers were scheduled. -/
  order : Nat
  callback : Value
  value : Value

/-- The end of a computation as an observer sees it. -/
inductive Answer where
  | value (v : Shown)
  | raised (kind text : String) (data : Shown)

/-- A line of the journal. -/
inductive Entry where
  /-- Some work has started. -/
  | logged (label : String)
  /-- Some work has been resumed. -/
  | resumed (label : String) (answer : Answer)
  /-- Some work has been done in a level of its own. -/
  | nested (label : String) (answer : Answer)
  /-- A coroutine has delivered a result. -/
  | delivered (outcome : Outcome) (v : Shown)
  /-- A dynamic binding has been looked up. -/
  | seen (v : Option Shown)

/-- What an operation of the stage delivers to one of its callers. -/
structure Delivery where
  /-- The value, or the error. -/
  result : Except (Condition Value) Value
  /-- Whether it is delivered after the operation has returned. -/
  late : Bool
deriving Inhabited

/-- The partners of a coroutine whose run is observed: the operation that it waits for
and the functions that receive its results.  What they are asked and told is kept, the
last first. -/
structure Stage where
  /-- What each call of the operation delivers, the calls counted from zero. -/
  deliveries : Nat → Delivery
  /-- The arguments of the calls of the operation, without the continuations. -/
  requests : List (List Value)
  /-- The continuations that are still to be called, the first one first, with their
  arguments. -/
  pending : List (Value × Value)
  /-- The results that have been received. -/
  results : List (Outcome × Value)
  /-- The names that have been looked up outside of the lexical bindings, with the frames
  in force; none when nobody asks for them. -/
  lookups : Option (List (Symbol × List (Frame Value)))
  /-- How many levels of the trampoline were active when names were looked up outside of the
  lexical bindings; none when nobody asks for it. -/
  depths : Option (List Nat)
  /-- The states that the execution of the context had, if there was one, when names were
  looked up outside of the lexical bindings; none when nobody asks for them. -/
  states : Option (List (Symbol × Option ExecutionState))
deriving Inhabited

/-- The stage on which nothing has happened. -/
def Stage.empty : Stage := ⟨fun _ => ⟨.ok .nil, false⟩, [], [], [], none, none, none⟩

/-- The state of a running program. -/
structure Machine where
  /-- The global definitions, each name once. -/
  globals : List (Symbol × Value)
  /-- The contents of atoms and the states of executions. -/
  heap : Heap
  /-- The dynamic context. -/
  context : Context Value
  /-- The active levels of the trampoline, the innermost first. -/
  levels : List Level
  /-- How many steps a level may take. -/
  limit : Option Nat
  /-- The number of the next function or thunk. -/
  nextId : Nat
  /-- What has been printed. -/
  out : String
  /-- The timers that wait, in the order in which they were scheduled. -/
  timers : List Timer
  /-- The time of the virtual clock. -/
  clock : Nat
  /-- How many timers have been scheduled. -/
  scheduled : Nat
  /-- The journal, the last line first. -/
  journal : List Entry
  /-- The partners of the coroutine that is observed. -/
  stage : Stage
deriving Inhabited

/-- The state of the execution of the context, if there is one. -/
def Machine.drivenState? (m : Machine) : Option ExecutionState :=
  m.context.execution.bind m.heap.state?

/-- The machine on which nothing has run. -/
def Machine.empty : Machine :=
  ⟨[], ⟨#[], #[]⟩, .empty, [], none, 0, "", [], 0, 0, [], .empty⟩

/-- Why a computation stops. -/
inductive Stop where
  /-- A condition was raised. -/
  | raised (c : Condition Value)
  /-- The program cannot go on. -/
  | fault (message : String)
  /-- The fuel ran out. -/
  | exhausted

/-- A computation of a running program. -/
abbrev Run := EStateM Stop Machine

namespace Run

/-- Stop with a condition. -/
def raiseCondition {α : Type} (c : Condition Value) : Run α := throw (.raised c)

/-- Raise a condition that carries a value. -/
def raiseWith {α : Type} (kind : ConditionKind) (message : String) (data : Value) : Run α :=
  raiseCondition ⟨kind, message, data⟩

/-- Raise a condition. -/
def raise {α : Type} (kind : ConditionKind) (message : String) : Run α :=
  raiseWith kind message .nil

/-- Stop with a fault. -/
def fault {α : Type} (message : String) : Run α := throw (.fault message)

/-- Run a computation to its value or to the condition it raises. -/
def attempt {α : Type} (act : Run α) : Run (Except (Condition Value) α) := fun m =>
  match act m with
  | .ok a m => .ok (.ok a) m
  | .error (.raised c) m => .ok (.error c) m
  | .error stop m => .error stop m

/-- The value of a finished computation. -/
def ofExcept {α : Type} : Except (Condition Value) α → Run α
  | .ok a => pure a
  | .error c => raiseCondition c

/-- Run a computation in a context, and go back to the context before it however it
ends. -/
def entering {α : Type} (c : Context Value) (act : Run α) : Run α := fun m =>
  let before := m.context
  match act { m with context := c } with
  | .ok a m => .ok a { m with context := before }
  | .error stop m => .error stop { m with context := before }

/-- Check the number of arguments of a function. -/
def checkArity (arity : Arity) (name : String) (args : List Value) : Run Unit :=
  if arity.accepts args.length then pure ()
  else raise .arityError (arity.complaint name args.length)

/-! ### Texts -/

/-- The text of a value. -/
def textOf (v : Value) : Run String := fun m =>
  match v.text? m.heap with
  | some s => .ok s m
  | none => .error .exhausted m

/-- The text of a value for a reader. -/
def plainTextOf (v : Value) : Run String := fun m =>
  match v.plainText? m.heap with
  | some s => .ok s m
  | none => .error .exhausted m

/-- A value as an observer sees it. -/
def shown (v : Value) : Run Shown := fun m =>
  match v.shown? m.heap with
  | some s => .ok s m
  | none => .error .exhausted m

/-- Print a line. -/
def printLine (line : String) : Run Unit :=
  modify fun m => { m with out := m.out ++ line ++ "\n" }

/-- Write a line of the journal. -/
def record (e : Entry) : Run Unit := modify fun m => { m with journal := e :: m.journal }

/-- Take the journal, the first line first. -/
def takeJournal : Run (List Entry) := modifyGet fun m =>
  (m.journal.reverse, { m with journal := [] })

/-! ### Names -/

/-- A number for a function or a thunk, which nothing else has. -/
def freshId : Run Nat := modifyGet fun m => (m.nextId, { m with nextId := m.nextId + 1 })

/-- Make a thunk of a function without parameters. -/
def thunk (resume : Value) : Run Value := return .thunk (← freshId) resume

/-- Make a native function that has a number. -/
def native (make : Nat → Native Value) : Run Value := return .native (make (← freshId))

/-- The global definitions after one of them has been made or replaced. -/
def setEntry (x : Symbol) (v : Value) : List (Symbol × Value) → List (Symbol × Value)
  | [] => [(x, v)]
  | (y, w) :: rest => if y == x then (x, v) :: rest else (y, w) :: setEntry x v rest

/-- Define a global. -/
def define (x : Symbol) (v : Value) : Run Unit :=
  modify fun m => { m with globals := setEntry x v m.globals }

/-- Note on the stage that a name is looked up outside of the lexical bindings. -/
def noteLookup (x : Symbol) : Run Unit := modify fun m =>
  let lookups := m.stage.lookups.map ((x, m.context.frames) :: ·)
  let depths := m.stage.depths.map (m.levels.length :: ·)
  let states := m.stage.states.map ((x, m.drivenState?) :: ·)
  { m with stage := { m.stage with lookups, depths, states } }

/-- The value of a name without a lexical binding: in the dynamic bindings, else in the
global definitions. -/
def lookupFree (x : Symbol) : Run Value := do
  noteLookup x
  let m ← get
  match m.context.lookup? x <|> m.globals.lookup x with
  | some v => return v
  | none => raiseWith .undefinedVariable ("undefined variable: " ++ x) (.symbol x)

/-- The value of a name: in the lexical bindings, else in the dynamic ones, else in the
global definitions. -/
def lookup (env : Env) (x : Symbol) : Run Value :=
  match env.lookup x with
  | some v => return v
  | none => lookupFree x

/-! ### Atoms -/

/-- Make an atom. -/
def newAtom (v : Value) : Run Value := modifyGet fun m =>
  (.atom m.heap.atoms.size, { m with heap := { m.heap with atoms := m.heap.atoms.push v } })

/-- The contents of an atom. -/
def readAtom (location : Nat) : Run Value := return (← get).heap.contents location

/-- Replace the contents of an atom. -/
def writeAtom (location : Nat) (v : Value) : Run Unit := modify fun m =>
  { m with heap := { m.heap with atoms := m.heap.atoms.setIfInBounds location v } }

/-! ### Executions -/

/-- Make an execution, which is running. -/
def newExecution : Run Nat := modifyGet fun m =>
  (m.heap.executions.size + 1,
    { m with heap := { m.heap with executions := m.heap.executions.push .running } })

/-- The state of an execution. -/
def executionState (id : Nat) : Run ExecutionState := do
  return ((← get).heap.state? id).getD .running

/-- Change the state of an execution. -/
def changeState (id : Nat) (next : ExecutionState) : Run Unit := modify fun m =>
  let executions := m.heap.executions.modify (id - 1) (·.change next)
  { m with heap := { m.heap with executions } }

/-- Settle an execution; whether it was not settled before. -/
def finish (id : Nat) (outcome : Outcome) : Run Bool := do
  let state ← executionState id
  changeState id (.settled outcome)
  return !state.isTerminal

/-- Change the state of the execution of a context, if there is one. -/
def changeStateIn (snapshot : Context Value) (next : ExecutionState) : Run Unit :=
  match snapshot.execution with
  | some id => changeState id next
  | none => pure ()

/-! ### Dynamic contexts -/

/-- The dynamic context. -/
def capture : Run (Context Value) := return (← get).context

/-- Enter a frame of dynamic bindings; the depth to leave it by. -/
def pushFrame (bindings : List (Symbol × Value)) : Run Nat := modifyGet fun m =>
  (m.context.depth, { m with context := m.context.push bindings })

/-- Leave the frames above a depth. -/
def popFrames (depth : Nat) : Run Unit := do
  let m ← get
  match m.context.popTo depth with
  | .ok context => set { m with context }
  | .error found =>
    raise .error ("binding frame " ++ toString depth ++ " is not active (depth is "
      ++ toString found ++ ")")

/-! ### Levels of the trampoline -/

/-- Whether a level is active. -/
def isActive : Run Bool := return !(← get).levels.isEmpty

/-- Open a level. -/
def openLevel : Run Unit := modify fun m => { m with levels := ⟨[], 0⟩ :: m.levels }

/-- Close the innermost level. -/
def closeLevel : Run Unit := modify fun m => { m with levels := m.levels.tail }

/-- Run a computation outside of every level, and go back to the levels before it. -/
def outside {α : Type} (act : Run α) : Run α := fun m =>
  let before := m.levels
  match act { m with levels := [] } with
  | .ok a m => .ok a { m with levels := before }
  | .error stop m => .error stop { m with levels := before }

/-- Let some work wait in the innermost level; whether there is one. -/
def enqueue (work : Work) : Run Bool := modifyGet fun m =>
  match m.levels with
  | [] => (false, m)
  | level :: rest =>
    (true, { m with levels := { level with queue := level.queue ++ [work] } :: rest })

/-- Take the first work that waits in the innermost level. -/
def dequeue : Run (Option Work) := modifyGet fun m =>
  match m.levels with
  | ⟨work :: queue, steps⟩ :: rest => (some work, { m with levels := ⟨queue, steps⟩ :: rest })
  | _ => (none, m)

/-- Count a step of the innermost level, when steps are limited. -/
def step : Run Unit := do
  let m ← get
  match m.limit, m.levels with
  | some limit, ⟨queue, steps⟩ :: rest =>
    set { m with levels := ⟨queue, steps + 1⟩ :: rest }
    if steps + 1 > limit then
      raise .trampolineLimit ("trampoline exceeded step limit (" ++ toString limit ++ ")")
  | _, _ => pure ()

end Run

/-- The condition that throwing a value raises: a condition itself, an error with a
string as its message, or an error that carries any other value. -/
def Run.thrown (v : Value) : Run (Condition Value) :=
  match v with
  | .condition c => return c
  | .scalar (.string s) => return ⟨.error, s, .nil⟩
  | v => return ⟨.error, "uncaught value: " ++ (← textOf v), v⟩

/-- Throw a value. -/
def Run.throwValue {α : Type} (v : Value) : Run α := do raiseCondition (← thrown v)

/-- The end of a computation as an observer sees it. -/
def Run.answer : Except (Condition Value) Value → Run Answer
  | .ok v => return .value (← shown v)
  | .error c => return .raised c.kind.name c.text (← shown c.data)

end Skein
