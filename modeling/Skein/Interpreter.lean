import Skein.Compile.Form
import Skein.Coroutine.Handlers
import Skein.Eval
import Skein.Source.Read

/-!
# Interpreters

An interpreter reads, compiles and evaluates source text.  Its state is kept from one
request to the next, also when a request fails.  Evaluating a text reads all of it first,
and then compiles and evaluates its forms in turn, so that a form is compiled after the
forms before it have run.
-/

namespace Skein

open Coroutine (Flavors Table Handler)

/-- The state of an interpreter. -/
structure Interpreter where
  symbols : SymbolTable
  flavors : Flavors
  /-- Whether a breakpoint in a function literal is left to fail when it is called. -/
  deferScopeChecks : Bool
  machine : Machine

/-- Why a request fails. -/
inductive Failure where
  /-- The text cannot be read. -/
  | read (e : Source.ReadError)
  /-- A form cannot be compiled. -/
  | compile (e : CompileError)
  /-- A condition was raised and not caught. -/
  | runtime (c : Condition Value)
  /-- The program cannot go on. -/
  | fault (message : String)
  /-- The fuel ran out. -/
  | exhausted

/-- The wording of a failure. -/
def Failure.text : Failure → String
  | read e => "read error: " ++ e.text
  | compile e => "compile error: " ++ e.text
  | runtime c => "runtime error: " ++ c.text
  | fault message => message
  | exhausted => "out of fuel"

/-- The failure of a computation that stops. -/
def Failure.ofStop : Stop → Failure
  | .raised c => runtime c
  | .fault message => fault message
  | .exhausted => exhausted

/-- A request to an interpreter. -/
abbrev Request := EStateM Failure Interpreter

/-- More fuel than a program uses that ends before long. -/
def ampleFuel : Nat := 1000000000000000

namespace Interpreter

/-- An interpreter without primitives; its only flavor is the default one. -/
def bare : Interpreter := ⟨SymbolTable.empty.insert "await", .default, false, .empty⟩

/-- Read something. -/
def reading {α : Type} (act : Source.Reading α) : Request α := fun i =>
  match act i.symbols with
  | .ok a symbols => .ok a { i with symbols }
  | .error e symbols => .error (.read e) { i with symbols }

/-- Compile something. -/
def compiling {α : Type} (act : Compiling α) : Request α := fun i =>
  match act i.symbols with
  | .ok a symbols => .ok a { i with symbols }
  | .error e symbols => .error (.compile e) { i with symbols }

/-- Run a computation. -/
def running {α : Type} (act : Run α) : Request α := fun i =>
  match act i.machine with
  | .ok a machine => .ok a { i with machine }
  | .error stop machine => .error (.ofStop stop) { i with machine }

/-- Number a name. -/
def intern (name : Symbol) : Request Unit :=
  modify fun i => { i with symbols := i.symbols.insert name }

/-- Define a global. -/
def define (name : Symbol) (v : Value) : Request Unit := do
  intern name
  running (Run.define name v)

/-- The value of a global definition. -/
def global? (name : Symbol) : Request (Option Value) := return (← get).machine.globals.lookup name

/-- Define the primitives. -/
def definePrimitives : Request Unit :=
  Primitive.all.forM fun p => define p.name (.native (.primitive p))

/-- Define the functions of the virtual clock. -/
def defineTimers : Request Unit :=
  [TimerOp.delay, .failAfter, .now].forM fun op => define op.name (.native (.timer op))

/-- Add a flavor.  Each of its breakpoints that is not defined is defined as a function
that says that it is called outside a coroutine body. -/
def addFlavor (name : String) (table : Table) : Request Unit := do
  table.ops.forM fun op => do
    if (← global? op).isNone then define op (.native (.sentinel op))
  modify fun i => { i with flavors := i.flavors.add name table }

/-- Make the table of some breakpoints and add it as a flavor. -/
def defineFlavor (name : String) (entries : List (Symbol × Handler)) : Request Table := do
  let table ← compiling (Table.ofList entries)
  addFlavor name table
  return table

/-- What compiling depends on. -/
def options (i : Interpreter) : Compile.Options := ⟨i.flavors, i.deferScopeChecks⟩

/-- Compile a form. -/
def compileForm (d : Datum) : Request Expr := do compiling (Compile.compile (← get).options d)

/-- Read and compile every form of a text. -/
def compileAll (source : String) : Request (List Expr) := do
  let forms ← reading (Source.readAll source)
  forms.mapM compileForm

/-- Evaluate a tree. -/
def evalExpr (fuel : Nat) (e : Expr) : Request Value := running (e.evalTop fuel)

/-- Compile and evaluate some forms in turn; the value of the last one, or `last`. -/
def evalForms (fuel : Nat) (last : Value) : List Datum → Request Value
  | [] => return last
  | d :: ds => do
    let e ← compileForm d
    let v ← evalExpr fuel e
    evalForms fuel v ds

/-- Evaluate every form of a text; the value of the last one. -/
def evalAll (fuel : Nat) (source : String) : Request Value := do
  let forms ← reading (Source.readAll source)
  evalForms fuel .nil forms

/-- Call a function outside of every level of the trampoline. -/
def call (fuel : Nat) (f : Value) (args : List Value) : Request Value :=
  running (f.call fuel args)

/-- Start a coroutine; its execution. -/
def start (fuel : Nat) (coroutine resolve reject : Value) : Request Nat :=
  running (Trampoline.start (Value.call fuel) fuel coroutine resolve reject)

/-- Fire timers until none is left; how many there were. -/
def fireTimers (fuel : Nat) : Request Nat := running (TimerOp.fireAll (Value.call fuel) fuel 0)

/-- Take what has been printed. -/
def takeOutput : Request String := modifyGet fun i =>
  (i.machine.out, { i with machine := { i.machine with out := "" } })

end Interpreter

end Skein
