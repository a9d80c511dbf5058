import Skein.Native.Argument
import Skein.Trampoline

/-!
# The virtual clock

Operations that deliver after some time.  Nothing waits: a timer is only noted, and is
fired when somebody turns the clock.
-/

namespace Skein.TimerOp

/-- The arity of a function of the clock. -/
def arity : TimerOp → Arity
  | .delay | .failAfter => .exactly 4
  | .now => .exactly 2

/-- Note a timer. -/
def schedule (time callback value : Value) : Run Value := do
  let time ← Argument.int time
  if time < 0 then Run.raise .error "negative delay"
  else
    modify fun m =>
      let order := m.scheduled + 1
      let timer := ⟨m.clock + time.toInt.toNat, order, callback, value⟩
      { m with scheduled := order, timers := m.timers ++ [timer] }
    return .nil

/-- Apply a function of the clock. -/
def apply (op : TimerOp) (call : Trampoline.Call) (args : List Value) : Run Value := do
  Run.checkArity (arity op) op.name args
  match op, args with
  | .delay, [time, v, k, _] => schedule time k v
  | .failAfter, [time, message, _, f] =>
    let message ← Run.plainTextOf message
    schedule time f (.condition ⟨.user "timeout", message, .nil⟩)
  | .now, [k, _] => call k [.int (Int64.ofNat (← get).clock)]
  | _, _ => return .nil

/-- The timer that is due first: of those with the least deadline, the one that was
scheduled first. -/
def due? (timers : List Timer) : Option Timer :=
  timers.foldl (fun best t =>
    match best with
    | none => some t
    | some b =>
      if t.deadline < b.deadline || (t.deadline = b.deadline && t.order < b.order) then some t
      else some b) none

/-- Take the timer that is due first, and turn the clock to its deadline. -/
def take : Run (Option Timer) := modifyGet fun m =>
  match due? m.timers with
  | none => (none, m)
  | some t =>
    (some t, { m with clock := t.deadline, timers := m.timers.filter (·.order ≠ t.order) })

/-- Fire timers in the order in which they are due until none is left; how many there
were.  A condition that a callback raises ends this. -/
def fireAll (call : Trampoline.Call) : (fuel : Nat) → (fired : Nat) → Run Nat
  | 0, _ => throw .exhausted
  | fuel + 1, fired => do
    match ← take with
    | none => return fired
    | some t =>
      let _ ← call t.callback [t.value]
      fireAll call fuel (fired + 1)

end Skein.TimerOp
