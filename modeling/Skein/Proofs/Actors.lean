import Skein.Proofs.EmptiedLevels
import Skein.Proofs.Stints

/-!
# Coroutines that take turns

The coroutines of a cast are started on one machine and resumed in any order.  Each of them has a
stage of its own: the operation that it awaits notes there what it is called with, and leaves the
continuation to be called that stands for the outcome of the call.  A turn of a coroutine is a
stint, as a level of the trampoline makes it: the start of the coroutine, or the first resumption
that waits for it, once somebody has called the continuation.

Whatever else happens meanwhile spares a coroutine when it changes nothing that the coroutine reads.
What a coroutine reads is told by what others may change: some globals and some of the atoms that it
knows.  A turn has to leave the same, and to come to the same, on the machine on which nothing but
the other globals and atoms is to be seen, and which drives no other execution.
-/

namespace Skein

open Run Trampoline

/-- A coroutine that takes turns with others, and what comes to it from outside. -/
structure Actor where
  /-- The number of its execution. -/
  execution : Nat
  /-- The function of two continuations that is started. -/
  coroutine : Value
  /-- What its value is delivered to. -/
  resolve : Value
  /-- What its error is delivered to. -/
  reject : Value
  /-- The context in which it is started. -/
  context : Context Value
  /-- The outcomes of the calls of the operation, counted from zero. -/
  outcomes : Nat → Ended Value
  /-- The globals that others may change. -/
  names : List Symbol
  /-- The atoms that others may change, by their places among those that the coroutine can know. -/
  places : List Nat

/-- What a coroutine has done in a stint. -/
structure Stint where
  /-- What has been noted until then: the calls of the operation, the continuations that are still
  to be called and the names that were looked up, with the frames in force. -/
  stage : Stage
  /-- The work that it has let wait. -/
  works : List Work
  /-- What its value has come to, with all its steps. -/
  result : Ended Value
  /-- The state of its execution. -/
  state : ExecutionState

/-- How far a coroutine has come. -/
structure Track where
  /-- The atoms that it can know: those that there were at first and those that it has made. -/
  atoms : List Nat
  /-- What it has done, the last first. -/
  stints : List Stint

/-- The work that calling a continuation lets wait. -/
def resumption? : Value × Value → Option Work
  | (.native (.awaitContinuation _ snapshot k), v) => some (.resumption snapshot k v)
  | (.native (.awaitFailure _ snapshot k), .condition c) =>
    some (.resumption snapshot k (.condition c))
  | _ => none

/-- A machine with another stage. -/
def Machine.onStage (m : Machine) (s : Stage) : Machine := { m with stage := s }

/-- The atoms that a computation has made. -/
def Machine.made (m m' : Machine) : List Nat :=
  List.range' m.heap.atoms.size (m'.heap.atoms.size - m.heap.atoms.size)

namespace Actor

/-- The stage on which a coroutine is started: every call of the operation leaves a continuation to
be called, and the names are noted that are looked up. -/
def stage (a : Actor) : Stage :=
  { Stage.empty with deliveries := fun n => ⟨a.outcomes n, true⟩, lookups := some [] }

/-- Whether a coroutine alone changes a global. -/
def reads (a : Actor) (b : Symbol × Value) : Bool := !a.names.contains b.1

/-- Whether a coroutine knows an atom that it alone changes. -/
def sees (a : Actor) (atoms : List Nat) (l : Nat) : Bool :=
  atoms.zipIdx.any fun (i, p) => i == l && !a.places.contains p

/-- A machine as a coroutine can see it: without the globals and the atoms that others may change,
without the clock and what has been printed and scheduled, and without the states of other
executions and those that have been started after its own. -/
def view (a : Actor) (atoms : List Nat) (m : Machine) : Machine :=
  let running := Array.replicate (min a.execution m.heap.executions.size) .running
  let state := (m.heap.state? a.execution).getD .running
  { m with
    globals := m.globals.filter a.reads
    heap :=
      { atoms := m.heap.atoms.mapIdx fun l v => if a.sees atoms l then v else .nil
        executions := running.setIfInBounds (a.execution - 1) state }
    out := ""
    timers := []
    clock := 0
    scheduled := 0
    journal := [] }

/-- What a coroutine does next, and the machine on which it does it: it is started, or it is resumed
by the first of the continuations that are to be called, once this has been called. -/
inductive Begins (a : Actor) (t : Track) (m : Machine) : Launch → Machine → Prop where
  | start (ht : t.stints = []) (hid : m.nextExecution = a.execution) (hc : m.context = a.context) :
    Begins a t m
      (.coroutine a.execution a.coroutine (m.successFor a.resolve) (m.failureFor a.reject))
      (m.launched.onStage a.stage)
  | resume {last : Stint} {earlier : List Stint} {next : Value × Value}
    {rest : List (Value × Value)} {work : Work} (ht : t.stints = last :: earlier)
    (hp : last.stage.pending = next :: rest) (hw : resumption? next = some work)
    (hl : m.levels ≠ [])
    (hs : m.heap.state? a.execution = some (last.state.change .resumed)) :
    Begins a t m (.work work) (m.onStage { last.stage with pending := rest })

/-- A turn of a coroutine that comes to the same where nothing is to be seen but what it can see;
and it starts no execution. -/
inductive Turn (a : Actor) (t : Track) (m : Machine) : Track → Machine → Prop where
  | mk {l : Launch} {m₁ m₂ m₃ : Machine} {r : Ended Value} {works : List Work}
    {state : ExecutionState} (hbegins : a.Begins t m l m₁) (hends : l.Ends m₁ r m₂)
    (hworks : Machine.Lets works m₁ m₂) (hstate : m₂.heap.state? a.execution = some state)
    (hview : l.Ends (a.view t.atoms m₁) r m₃)
    (hsame : a.view (t.atoms ++ m₁.made m₂) m₃ = a.view (t.atoms ++ m₁.made m₂) m₂)
    (hnone : m₃.heap.executions.size = a.execution) :
    Turn a t m ⟨t.atoms ++ m₁.made m₂, ⟨m₂.stage, works, r, state⟩ :: t.stints⟩
      (m₂.onStage m.stage)

/-- What a coroutine comes to where nothing is to be seen but what it can see, it comes to on the
machine itself. -/
def Aloof (a : Actor) (t : Track) (l : Launch) (m : Machine) : Prop :=
  ∀ r m₃, l.Ends (a.view t.atoms m) r m₃ → ∃ m₂, l.Ends m r m₂ ∧
    a.view (t.atoms ++ m.made m₂) m₃ = a.view (t.atoms ++ m.made m₂) m₂

/-- What happens changes nothing that a coroutine reads.  It may be that somebody calls the
continuation for which the coroutine waits. -/
structure Spares (a : Actor) (t : Track) (m m' : Machine) : Prop where
  globals : m'.globals.filter a.reads = m.globals.filter a.reads
  atoms : ∀ l, a.sees t.atoms l = true → m'.heap.contents l = m.heap.contents l
  state : ∀ last earlier, t.stints = last :: earlier →
    m'.heap.state? a.execution = m.heap.state? a.execution ∨
      (last.stage.pending ≠ [] ∧
        m'.heap.state? a.execution = (m.heap.state? a.execution).map (·.change .resumed))
  made : m.heap.atoms.size ≤ m'.heap.atoms.size
  numbered : m.nextId ≤ m'.nextId
  limit : m.limit = none → m'.limit = none

end Actor

end Skein
