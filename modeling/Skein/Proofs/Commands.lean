import Skein.Proofs.Requests

/-!
# What an interpreter can be asked for

The host of an interpreter asks it for one thing after another, and what a request does to the
machine is kept by the next one.  Whatever every operation of the machine keeps, every request
keeps too, whether it gives a value or fails: reading and compiling do not touch the machine,
and everything else that a request does is a computation of the machine.
-/

namespace Skein

open Run Trampoline Coroutine

variable {α β : Type}

/-! ### What requests keep -/

/-- What a request does to the machine is kept, when it ends. -/
def Request.Keeps (keeps : Machine → Machine → Prop) (act : Request α) : Prop :=
  ∀ i r i', act.Ends i r i' → keeps i.machine i'.machine

namespace Request.Keeps

variable {keeps : Machine → Machine → Prop}

/-- A change of the interpreter keeps the machine when the change of the machine does. -/
theorem change {f : Interpreter → Interpreter} (hf : ∀ i, keeps i.machine (f i).machine) :
  (modify f : Request Unit).Keeps keeps
  := by
  intro i r i' hends
  rw [(hends.unique (.ok rfl)).2]
  exact hf i

/-- A request for the state of the interpreter keeps what the rest keeps. -/
theorem get {k : Interpreter → Request α} (hk : ∀ i, (k i).Keeps keeps) :
  (MonadState.get >>= k : Request α).Keeps keeps
  := by
  intro i r i' hends
  cases hends with
  | ok hends => exact hk i i _ i' (.ok hends)
  | error he hends => exact hk i i _ i' (.error he hends)

/-- Running a computation keeps what every operation of the machine keeps. -/
theorem running {act : Run α} {post : α → Prop} (hact : act.Keeps (.everything keeps) post) :
  (Interpreter.running act).Keeps keeps
  := by
  intro i r i' hends
  obtain ⟨s, m', hgives, -, rfl⟩ := Interpreter.gives_of_running hends
  exact hact.kept hgives

section keeping

variable (h : (Regime.everything keeps).Keeping)
include h

/-- A request that leaves the machine as it was keeps it. -/
theorem of_machine {act : Request α} (hact : ∀ i r i', act.Ends i r i' → i'.machine = i.machine) :
  act.Keeps keeps
  := by
  intro i r i' hends
  rw [hact i r i' hends]
  exact h.refl i.machine

/-- A request that gives a value at once keeps the machine. -/
theorem pure (a : α) :
  (Pure.pure a : Request α).Keeps keeps
  := of_machine h fun _ _ _ hends => congrArg _ (hends.unique (.ok rfl)).2

/-- One request after another keeps what each of them keeps. -/
theorem bind {act : Request α} {k : α → Request β} (hact : act.Keeps keeps)
    (hk : ∀ a, (k a).Keeps keeps) :
  (act >>= k).Keeps keeps
  := by
  intro i r i' hends
  rcases Request.ends_bind_iff.1 hends with ⟨a, i₁, hfirst, hends⟩ | ⟨e, -, hfirst⟩
  · exact h.trans (hact i _ i₁ hfirst) (hk a i₁ r i' hends)
  · exact hact i _ i' hfirst

/-- Requests for each element of a list keep what each of them keeps. -/
theorem mapM {f : α → Request β} (as : List α) (hf : ∀ a, (f a).Keeps keeps) :
  (as.mapM f).Keeps keeps
  := by
  induction as with
  | nil =>
    rw [List.mapM_nil]
    exact pure h []
  | cons a as ih =>
    rw [List.mapM_cons]
    apply bind h (hf a)
    intro b
    apply bind h ih
    intro bs
    exact pure h (b :: bs)

/-- Requests for each element of a list that give nothing keep what each of them keeps. -/
theorem forM {f : α → Request PUnit} (as : List α) (hf : ∀ a, (f a).Keeps keeps) :
  (as.forM f).Keeps keeps
  := by
  induction as with
  | nil => exact pure h PUnit.unit
  | cons a as ih =>
    apply bind h (hf a)
    intro _
    exact ih

/-- Reading keeps the machine. -/
theorem reading (act : Source.Reading α) :
  (Interpreter.reading act).Keeps keeps
  := by
  apply of_machine h
  intro i r i' hends
  obtain ⟨t, rfl⟩ := Interpreter.ends_reading hends
  rfl

/-- Compiling keeps the machine. -/
theorem compiling (act : Compiling α) :
  (Interpreter.compiling act).Keeps keeps
  := by
  apply of_machine h
  intro i r i' hends
  obtain ⟨t, rfl⟩ := Interpreter.ends_compiling hends
  rfl

end keeping

end Request.Keeps

/-! ### Commands -/

/-- What an interpreter can be asked for, other than to fire timers. -/
inductive Command where
  /-- Evaluate a text. -/
  | eval (source : String)
  /-- Compile a text. -/
  | compile (source : String)
  /-- Define a global. -/
  | define (name : Symbol) (v : Value)
  /-- Add a flavor of coroutines. -/
  | flavor (name : String) (entries : List (Symbol × Handler))
  /-- Call a function outside of every level. -/
  | call (f : Value) (args : List Value)
  /-- Start a coroutine. -/
  | start (coroutine resolve reject : Value)
  /-- Leave breakpoints in function literals to fail when they are called, or do not. -/
  | deferScopeChecks (defer : Bool)
  /-- Limit the steps of a level. -/
  | limit (steps : Option Nat)
  /-- Take what has been printed. -/
  | takeOutput

/-- The request of a command. -/
def Command.request (fuel : Nat) : Command → Request Unit
  | eval source => do let _ ← Interpreter.evalAll fuel source
  | compile source => do let _ ← Interpreter.compileAll source
  | define name v => Interpreter.define name v
  | flavor name entries => do let _ ← Interpreter.defineFlavor name entries
  | call f args => do let _ ← Interpreter.call fuel f args
  | start coroutine resolve reject => do
    let _ ← Interpreter.start fuel coroutine resolve reject
  | deferScopeChecks defer => modify fun i => { i with deferScopeChecks := defer }
  | limit steps => modify fun i => { i with machine := { i.machine with limit := steps } }
  | takeOutput => do let _ ← Interpreter.takeOutput

section keeping

variable {keeps : Machine → Machine → Prop} (h : (Regime.everything keeps).Keeping)
include h

/-- Evaluating a text keeps what every operation of the machine keeps. -/
theorem Interpreter.evalAll_keeps (fuel : Nat) (source : String) :
  (evalAll fuel source).Keeps keeps
  := by
  intro i r i' hends
  rw [evalAll_eq] at hends
  have hkept := evalAllBy_kept (Regime.everything_lawful h) (o := i.options)
    (fun _ _ _ _ _ => trivial) (fun e _ => Regime.everything_evalTop h e fuel) hends rfl
    (i.machine.obeys_everything keeps)
  exact hkept.keeps

/-- Defining a global keeps what every operation of the machine keeps. -/
theorem Interpreter.define_keeps (name : Symbol) (v : Value) :
  (Interpreter.define name v).Keeps keeps
  := by
  have hintern : (intern name).Keeps keeps := Request.Keeps.change fun i => h.refl i.machine
  apply Request.Keeps.bind h hintern
  intro _
  exact Request.Keeps.running (Keeps.define (Regime.everything_lawful h) name trivial)

/-- Adding a flavor keeps what every operation of the machine keeps. -/
theorem Interpreter.defineFlavor_keeps (name : String) (entries : List (Symbol × Handler)) :
  (defineFlavor name entries).Keeps keeps
  := by
  apply Request.Keeps.bind h (Request.Keeps.compiling h _)
  intro table
  refine Request.Keeps.bind h ?_ fun _ => Request.Keeps.pure h table
  refine Request.Keeps.bind h (Request.Keeps.forM h table.ops fun op => ?_) fun _ =>
    Request.Keeps.change fun i => h.refl i.machine
  apply Request.Keeps.bind h (Request.Keeps.get fun i => Request.Keeps.pure h _)
  intro found
  split
  · exact define_keeps h op _
  · exact Request.Keeps.pure h PUnit.unit

/-- Starting a coroutine keeps what every operation of the machine keeps. -/
theorem Trampoline.start_keepsAll (fuel : Nat) (coroutine resolve reject : Value) :
  (Trampoline.start (Value.call fuel) fuel coroutine resolve reject).Keeps (.everything keeps)
    fun _ => True
  := start_keeps (Regime.everything_lawful h) (Regime.everything_call h fuel) trivial fuel
    trivial trivial trivial

/-- Every command keeps what every operation of the machine keeps, if setting the limit of steps
does. -/
theorem Command.request_keeps (hlimit : ∀ (m : Machine) (steps : Option Nat),
      keeps m { m with limit := steps }) (fuel : Nat) (c : Command) :
  (c.request fuel).Keeps keeps
  := by
  cases c with
  | eval source =>
    exact Request.Keeps.bind h (Interpreter.evalAll_keeps h fuel source) fun _ =>
      Request.Keeps.pure h ()
  | compile source =>
    refine Request.Keeps.bind h ?_ fun _ => Request.Keeps.pure h ()
    apply Request.Keeps.bind h (Request.Keeps.reading h _)
    intro forms
    apply Request.Keeps.mapM h forms
    intro d
    exact Request.Keeps.get fun i => Request.Keeps.compiling h _
  | define name v => exact Interpreter.define_keeps h name v
  | flavor name entries =>
    exact Request.Keeps.bind h (Interpreter.defineFlavor_keeps h name entries) fun _ =>
      Request.Keeps.pure h ()
  | call f args =>
    have hcall := Regime.everything_call h fuel f args trivial fun _ _ => trivial
    exact Request.Keeps.bind h (Request.Keeps.running hcall) fun _ => Request.Keeps.pure h ()
  | start coroutine resolve reject =>
    have hstart := Trampoline.start_keepsAll h fuel coroutine resolve reject
    exact Request.Keeps.bind h (Request.Keeps.running hstart) fun _ => Request.Keeps.pure h ()
  | deferScopeChecks defer => exact Request.Keeps.change fun i => h.refl i.machine
  | limit steps => exact Request.Keeps.change fun i => hlimit i.machine steps
  | takeOutput =>
    refine Request.Keeps.bind h ?_ fun _ => Request.Keeps.pure h ()
    intro i r i' hends
    rw [(hends.unique (.ok rfl)).2]
    exact h.inert (.of_eq rfl rfl rfl rfl rfl (.of_eq rfl rfl rfl))

end keeping

end Skein
