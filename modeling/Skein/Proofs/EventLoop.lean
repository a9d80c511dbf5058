import Skein.Proofs.Commands
import Skein.Proofs.EmptiedLevels
import Skein.Proofs.Scheduling

/-!
# The event loop

A session is any sequence of commands and of runs of the event loop.  Commands and callbacks
schedule timers, and the event loop fires them: over the whole session in the order of their
deadlines and numbers, each at most once, and each callback is finished, with all the work that
it lets wait, before the next timer is taken.  When a callback fails, the loop stops there, and
the other timers wait for its next run.
-/

namespace Skein

open Run Trampoline Interpreter

variable {m m' : Machine} {c fuel : Nat}

/-! ### Timers that are fired -/

/-- A timer that is fired: the machine when its callback is called, what the call comes to, and
the machine then. -/
structure Firing where
  timer : Timer
  before : Machine
  result : Ended Value
  after : Machine

namespace Firing

/-- The timers that the callback has scheduled: those that wait behind the others. -/
def scheduled (f : Firing) : List Timer := f.after.timers.drop f.before.timers.length

/-- What the event loop comes to that has fired some timers after others: the condition with
which the first callback has failed, or how many timers there were. -/
def outcome (count : Nat) (fs : List Firing) : Ended Nat :=
  match fs.findSome? (·.result.raised?) with
  | none => .ok (count + fs.length)
  | some d => .error d

/-- The machine after some timers have been fired. -/
def leaves (m : Machine) : List Firing → Machine
  | [] => m
  | f :: fs => leaves f.after fs

/-- A callback has been called when the clock had been turned to its deadline and no level of the
trampoline was active.  When it ended, no level was active, so no work was left; all that it has
done to the timers is that it has scheduled new ones; and if it goes on with a suspended call or
delivers a result, then the work of this has been completed in a level of its own, with all the
work that waited there. -/
structure Finished (f : Firing) : Prop where
  turned : f.before.clock = f.timer.deadline
  outside : f.before.levels = []
  called : ∃ fuel, (Value.call fuel f.timer.callback [f.timer.value]).Gives f.before f.result f.after
  emptied : f.after.levels = []
  schedules : f.before.Schedules f.scheduled f.after
  completed : ∀ g, f.timer.callback = .native g → g.isContinuation = true →
    ∃ c work m₁, g.GoesOn f.before f.timer.value work m₁ ∧
      Completes (Value.call c) (perform (Value.call c) work) m₁ f.result f.after

/-- A callback that is finished has not turned the clock back. -/
theorem Finished.clock_le {f : Firing} (h : f.Finished) (hturn : m.Turns f.timer f.before) :
  m.clock ≤ f.after.clock
  := by
  rw [h.schedules.clock, h.turned]
  exact hturn.forward

end Firing

/-- Timers are fired: always the one that is due before all others, and the next one only when
the callback of the last one has given a value, until none waits or a callback fails. -/
inductive Fires (call : Call) : Machine → List Firing → Machine → Prop where
  | done {m : Machine} (hnone : m.timers = []) : Fires call m [] m
  | failed {m : Machine} {f : Firing} {d : Condition Value} (hturn : m.Turns f.timer f.before)
    (hcall : (call f.timer.callback [f.timer.value]).Gives f.before f.result f.after)
    (hfailed : f.result.raised? = some d) : Fires call m [f] f.after
  | next {m m' : Machine} {f : Firing} {fs : List Firing} (hturn : m.Turns f.timer f.before)
    (hcall : (call f.timer.callback [f.timer.value]).Gives f.before f.result f.after)
    (hok : f.result.raised? = none) (hrest : Fires call f.after fs m') : Fires call m (f :: fs) m'

namespace Fires

variable {call : Call} {fs : List Firing}

/-- When no callback has failed, no timer waits any more. -/
theorem timers_eq_nil (h : Fires call m fs m') (hok : ∀ f ∈ fs, f.result.raised? = none) :
  m'.timers = []
  := by
  induction h with
  | done hnone => exact hnone
  | @failed m f d _ _ hfailed =>
    have hnone := hok f (List.mem_singleton_self f)
    rw [hfailed] at hnone
    cases hnone
  | next _ _ _ _ ih => exact ih (List.forall_mem_cons.1 hok).2

/-- A callback that fails is the last one that is called. -/
theorem eq_concat (h : Fires call m fs m') {d : Condition Value}
    (hfailed : fs.findSome? (·.result.raised?) = some d) :
  ∃ front f, fs = front ++ [f] ∧ f.result.raised? = some d ∧
    (Firing.leaves m front).Turns f.timer f.before ∧ m' = f.after
  := by
  induction h with
  | done _ => cases hfailed
  | @failed m f d' hturn _ hd =>
    rw [List.findSome?_cons, hd] at hfailed
    cases hfailed
    exact ⟨[], f, rfl, hd, hturn, rfl⟩
  | @next m m' f fs _ _ hok _ ih =>
    rw [List.findSome?_cons, hok] at hfailed
    obtain ⟨front, last, rfl, hd, hturn, hm'⟩ := ih hfailed
    exact ⟨f :: front, last, rfl, hd, hturn, hm'⟩

end Fires

/-! ### Telling of the timers that are fired -/

namespace TimerOp

/-- Fire timers as `fireAll` does, and tell of each of them. -/
def fireEach (call : Call) : (fuel : Nat) → Run (List Firing)
  | 0 => throw .exhausted
  | fuel + 1 => do
    match ← take with
    | none => return []
    | some t =>
      let before ← get
      let result ← Run.attempt (call t.callback [t.value])
      let f : Firing := ⟨t, before, result, ← get⟩
      match result with
      | .ok _ => return f :: (← fireEach call fuel)
      | .error _ => return [f]

section telling

variable {call : Call} {fs : List Firing} {m₁ m₂ : Machine} {t : Timer}

/-- Taking a timer raises no condition. -/
theorem take_ne_raised {d : Condition Value} :
  ¬ take.Gives m (.error d) m'
  := nofun

/-- When no timer is taken, none waits. -/
theorem take_none (h : take.Gives m (.ok none) m') :
  m = m' ∧ m.timers = []
  := by
  cases hts : m.timers with
  | nil => exact ⟨((gives_take_none hts).unique h).2, rfl⟩
  | cons t ts =>
    obtain ⟨first, hfirst, -⟩ := exists_due? t ts
    rw [← hts] at hfirst
    cases ((gives_take_some hfirst).unique h).1

/-- A computation goes on with the machine that it has asked for. -/
theorem gives_get {α : Type} {k : Machine → Run α} {r : Ended α} (h : (k m).Gives m r m') :
  (get >>= k).Gives m r m'
  := h

/-- When a callback gives a value, the event loop goes on. -/
theorem gives_fireEach_cons {v : Value} (htake : take.Gives m (.ok (some t)) m₁)
    (hcall : (call t.callback [t.value]).Gives m₁ (.ok v) m₂)
    (hrest : (fireEach call fuel).Gives m₂ (.ok fs) m') :
  (fireEach call (fuel + 1)).Gives m (.ok (⟨t, m₁, .ok v, m₂⟩ :: fs)) m'
  := by
  apply htake.bind
  apply gives_get
  apply hcall.attempt.bind
  apply gives_get
  exact hrest.bind (gives_pure _ m')

/-- When a callback fails, the event loop stops. -/
theorem gives_fireEach_singleton {d : Condition Value} (htake : take.Gives m (.ok (some t)) m₁)
    (hcall : (call t.callback [t.value]).Gives m₁ (.error d) m₂) :
  (fireEach call (fuel + 1)).Gives m (.ok [⟨t, m₁, .error d, m₂⟩]) m₂
  := by
  apply htake.bind
  apply gives_get
  apply hcall.attempt.bind
  apply gives_get
  exact gives_pure _ m₂

end telling

end TimerOp

/-- A callback that gives a value is counted, and what comes after it decides. -/
theorem Firing.outcome_cons {f : Firing} (hok : f.result.raised? = none) (count : Nat)
    (fs : List Firing) :
  outcome count (f :: fs) = outcome (count + 1) fs
  := by
  unfold outcome
  rw [List.findSome?_cons, hok, List.length_cons, Nat.add_right_comm, Nat.add_assoc]

/-! ### Keeping account -/

/-- What is true of a machine outside of every level when timers have been scheduled since
`start` of them had been, and some of them have been fired. -/
structure Account (start : Nat) (scheduled : List Timer) (fired : List Firing) (m : Machine) :
    Prop where
  table : Timetable start scheduled (fired.map (·.timer)) m
  outside : m.levels = []
  finished : ∀ f ∈ fired, f.Finished

namespace Account

variable {start : Nat} {ts : List Timer} {fs fs' : List Firing} {f : Firing}

/-- Whatever schedules timers and closes the levels that it opens adds to the account. -/
theorem schedule (h : Account start ts fs m) (hnew : m.SchedulesOnly m') (hlater : m.Later m') :
  Account start (ts ++ m'.timers.drop m.timers.length) fs m'
  where
  table := h.table.schedule hnew.schedules
  outside := hlater.levels_eq_nil h.outside
  finished := h.finished

/-- Calling the callback of the timer that is due first, when the clock has been turned to it,
adds to the account. -/
theorem fire (h : Account start ts fs m) (hturn : m.Turns f.timer f.before)
    (hcall : (Value.call c f.timer.callback [f.timer.value]).Gives f.before f.result f.after) :
  Account start (ts ++ f.scheduled) (fs ++ [f]) f.after
  := by
  obtain ⟨earlier, later, -, hbefore⟩ := hturn.waits
  have houtside : f.before.levels = [] := by
    rw [hbefore]
    exact h.outside
  have hschedules : f.before.Schedules f.scheduled f.after :=
    (Value.call_schedules hcall).schedules
  -- a call leaves as many levels as it finds, and here it finds none
  have hemptied : f.after.levels = [] :=
    (Value.callEnds_of_gives c hcall).later.levels_eq_nil houtside
  have htable : Timetable start ts ((fs ++ [f]).map (·.timer)) f.before := by
    rw [List.map_append]
    exact h.table.turn hturn
  have hfinished : f.Finished := {
    turned := by rw [hbefore]
    outside := houtside
    called := ⟨c, hcall⟩
    emptied := hemptied
    schedules := hschedules
    completed := by
      intro g hg hcontinues
      rw [hg] at hcall
      exact Native.continuation_completes hcontinues houtside hcall }
  exact ⟨htable.schedule hschedules, hemptied,
    List.forall_mem_append.2 ⟨h.finished, List.forall_mem_singleton.2 hfinished⟩⟩

/-- The callback that was called last is finished. -/
theorem finished_last (h : Account start ts (fs ++ [f]) m) :
  f.Finished
  := h.finished f (List.mem_append_right fs (List.mem_singleton_self f))

/-- Firing timers adds to the account, and does not turn the clock back. -/
theorem fires (h : Account start ts fs m) (hfires : Fires (Value.call c) m fs' m') :
  Account start (ts ++ fs'.flatMap (·.scheduled)) (fs ++ fs') m' ∧ m.clock ≤ m'.clock
  := by
  induction hfires generalizing ts fs with
  | done _ =>
    rw [List.flatMap_nil, List.append_nil, List.append_nil]
    exact ⟨h, Nat.le_refl _⟩
  | @failed m f d hturn hcall _ =>
    have hfired := h.fire hturn hcall
    rw [List.flatMap_singleton]
    exact ⟨hfired, hfired.finished_last.clock_le hturn⟩
  | @next m m' f fs' hturn hcall _ _ ih =>
    have hfired := h.fire hturn hcall
    obtain ⟨haccount, hclock⟩ := ih hfired
    rw [List.append_assoc, List.append_assoc] at haccount
    exact ⟨haccount, Nat.le_trans (hfired.finished_last.clock_le hturn) hclock⟩

/-- When the event loop comes to an end, it has fired timers, of which it can be told. -/
theorem fireAll_fires (h : Account start ts fs m) {count : Nat} {r : Ended Nat}
    (hloop : (TimerOp.fireAll (Value.call c) fuel count).Gives m r m') :
  ∃ fs', (TimerOp.fireEach (Value.call c) fuel).Gives m (.ok fs') m' ∧
    Fires (Value.call c) m fs' m' ∧ r = Firing.outcome count fs'
  := by
  induction fuel generalizing m count ts fs with
  | zero => cases r <;> cases hloop
  | succ fuel ih =>
    obtain ⟨next, m₁, htake, hloop⟩ | ⟨d, -, htake⟩ := gives_bind_iff.1 hloop
    case inr => exact absurd htake TimerOp.take_ne_raised
    cases next with
    | none =>
      obtain ⟨rfl, rfl⟩ := (gives_pure count m₁).unique hloop
      obtain ⟨rfl, hnone⟩ := TimerOp.take_none htake
      exact ⟨[], htake.bind (gives_pure [] _), .done hnone, rfl⟩
    | some t =>
      -- that the timer is the one due first, and no other has its number, is told by the account
      have hturn := h.table.take_turns htake
      rcases gives_bind_iff.1 hloop with ⟨v, m₂, hcall, hloop⟩ | ⟨d, rfl, hcall⟩
      · let f : Firing := ⟨t, m₁, .ok v, m₂⟩
        have hfired : Account start (ts ++ f.scheduled) (fs ++ [f]) m₂ := h.fire (f := f) hturn hcall
        obtain ⟨fs', htold, hfires, rfl⟩ := ih hfired hloop
        exact ⟨f :: fs', TimerOp.gives_fireEach_cons htake hcall htold,
          .next (f := f) hturn hcall rfl hfires, (Firing.outcome_cons (f := f) rfl count fs').symm⟩
      · let f : Firing := ⟨t, m₁, .error d, m'⟩
        exact ⟨[f], TimerOp.gives_fireEach_singleton htake hcall,
          .failed (f := f) hturn hcall rfl, rfl⟩

end Account

/-! ### Sessions -/

/-- The timers that the event loop fires, when it comes to an end. -/
def Machine.firings (fuel : Nat) (m : Machine) : List Firing :=
  match TimerOp.fireEach (Value.call fuel) fuel m with
  | .ok fs _ => fs
  | .error _ _ => []

/-- An interpreter is asked for one thing after another, with the timers that are scheduled
meanwhile and those that are fired.  What a command or a callback schedules waits behind the
timers that waited before. -/
inductive Session (i : Interpreter) : List Timer → List Firing → Interpreter → Prop where
  | start : Session i [] [] i
  | command {i₁ i₂ : Interpreter} {ts : List Timer} {fs : List Firing} {r : Except Failure Unit}
    (h : Session i ts fs i₁) (c : Command) (fuel : Nat) (hc : (c.request fuel).Ends i₁ r i₂) :
    Session i (ts ++ i₂.machine.timers.drop i₁.machine.timers.length) fs i₂
  | loop {i₁ i₂ : Interpreter} {ts : List Timer} {fs : List Firing} {r : Except Failure Nat}
    (h : Session i ts fs i₁) (fuel : Nat) (hloop : (fireTimers fuel).Ends i₁ r i₂) :
    Session i (ts ++ (i₁.machine.firings fuel).flatMap (·.scheduled))
      (fs ++ i₁.machine.firings fuel) i₂

/-- What is true after a session, of the timers that have been scheduled and of those that have
been fired in it. -/
structure FiresInOrder (i : Interpreter) (scheduled : List Timer) (fired : List Firing)
    (i' : Interpreter) : Prop where
  /-- Timers are numbered in the order in which they are scheduled. -/
  numbers : scheduled.map (·.order) = List.range' (i.machine.scheduled + 1) scheduled.length
  /-- No timer is missing. -/
  count : i'.machine.scheduled = i.machine.scheduled + scheduled.length
  /-- Every timer is fired once or waits. -/
  once : (fired.map (·.timer) ++ i'.machine.timers).Perm scheduled
  /-- Timers are fired in the order of their deadlines, and of their numbers where deadlines are
  the same. -/
  increasing : (fired.map (·.timer)).Pairwise Timer.Before
  /-- Callbacks are finished. -/
  finished : ∀ f ∈ fired, f.Finished
  /-- However the session goes on, the clock does not go back. -/
  clock : ∀ ts fs i'', Session i' ts fs i'' → i'.machine.clock ≤ i''.machine.clock
  /-- When the event loop runs then, it fires one timer after another, and comes to the condition
  of the callback that fails, or else to their number. -/
  loop : ∀ fuel r i'', (fireTimers fuel).Ends i' r i'' →
    Fires (Value.call fuel) i'.machine (i'.machine.firings fuel) i''.machine ∧
    r = (Firing.outcome 0 (i'.machine.firings fuel)).mapError .runtime
  /-- When no callback fails, all timers have been fired when the event loop returns. -/
  all : ∀ fuel r i'', (fireTimers fuel).Ends i' r i'' →
    (∀ f ∈ i'.machine.firings fuel, f.result.raised? = none) →
    r = .ok (i'.machine.firings fuel).length ∧ i''.machine.timers = [] ∧
    ((fired ++ i'.machine.firings fuel).map (·.timer)).Perm
      (scheduled ++ (i'.machine.firings fuel).flatMap (·.scheduled))
  /-- When a callback fails, no other one is called after it, and of the timers that waited only
  its own is gone. -/
  failed : ∀ fuel r i'', (fireTimers fuel).Ends i' r i'' →
    ∀ d, (i'.machine.firings fuel).findSome? (·.result.raised?) = some d →
    r = .error (.runtime d) ∧
    ∃ front f earlier later, i'.machine.firings fuel = front ++ [f] ∧ f.result = .error d ∧
      (Firing.leaves i'.machine front).timers = earlier ++ f.timer :: later ∧
      i''.machine.timers = earlier ++ later ++ f.scheduled

variable {i i' i₁ : Interpreter} {start : Nat} {ts ts' : List Timer} {fs fs' : List Firing}

/-- A command adds to the account what it schedules, and leaves the clock as it is. -/
theorem Account.command (h : Account start ts fs i.machine) {cmd : Command}
    {r : Except Failure Unit} (hc : (cmd.request fuel).Ends i r i') :
  Account start (ts ++ i'.machine.timers.drop i.machine.timers.length) fs i'.machine ∧
    i'.machine.clock = i.machine.clock
  := by
  have hschedules : i.machine.SchedulesOnly i'.machine :=
    cmd.request_keeps Machine.schedulesOnly_keeping (fun _ _ => .of_eq rfl rfl rfl) fuel i r i' hc
  have hlater : i.machine.Later i'.machine :=
    cmd.request_keeps Machine.later_keeping (fun _ _ => ⟨.of_eq rfl, rfl, rfl⟩) fuel i r i' hc
  exact ⟨h.schedule hschedules hlater, hschedules.schedules.clock⟩

/-- A run of the event loop fires timers. -/
theorem Account.loop (h : Account start ts fs i.machine) {r : Except Failure Nat}
    (hloop : (fireTimers fuel).Ends i r i') :
  Fires (Value.call fuel) i.machine (i.machine.firings fuel) i'.machine ∧
    r = (Firing.outcome 0 (i.machine.firings fuel)).mapError .runtime
  := by
  obtain ⟨s, m', hgives, rfl, rfl⟩ := gives_of_running hloop
  obtain ⟨fs', htold, hfires, rfl⟩ := h.fireAll_fires hgives
  have hfirings : i.machine.firings fuel = fs' := by
    unfold Gives at htold
    rw [Machine.firings, htold]
  rw [hfirings]
  exact ⟨hfires, rfl⟩

/-- A session adds to the account, and does not turn the clock back. -/
theorem Session.account (hs : Session i ts' fs' i') (h : Account start ts fs i.machine) :
  Account start (ts ++ ts') (fs ++ fs') i'.machine ∧ i.machine.clock ≤ i'.machine.clock
  := by
  induction hs with
  | start =>
    rw [List.append_nil, List.append_nil]
    exact ⟨h, Nat.le_refl _⟩
  | command _ cmd fuel hc ih =>
    obtain ⟨haccount, hclock⟩ := ih
    obtain ⟨hnext, hsame⟩ := haccount.command hc
    rw [List.append_assoc] at hnext
    exact ⟨hnext, hsame ▸ hclock⟩
  | loop _ fuel hloop ih =>
    obtain ⟨haccount, hclock⟩ := ih
    obtain ⟨hnext, hturned⟩ := haccount.fires (haccount.loop hloop).1
    rw [List.append_assoc, List.append_assoc] at hnext
    exact ⟨hnext, Nat.le_trans hclock hturned⟩

/-- The end of the event loop when a callback has failed. -/
theorem Account.failed (h : Account start ts fs i.machine) {r : Except Failure Nat}
    (hloop : (fireTimers fuel).Ends i r i') {d : Condition Value}
    (hfailed : (i.machine.firings fuel).findSome? (·.result.raised?) = some d) :
  r = .error (.runtime d) ∧
    ∃ front f earlier later, i.machine.firings fuel = front ++ [f] ∧ f.result = .error d ∧
      (Firing.leaves i.machine front).timers = earlier ++ f.timer :: later ∧
      i'.machine.timers = earlier ++ later ++ f.scheduled
  := by
  obtain ⟨hfires, rfl⟩ := h.loop hloop
  obtain ⟨front, f, hlast, hd, hturn, hafter⟩ := hfires.eq_concat hfailed
  obtain ⟨earlier, later, hsplit, hbefore⟩ := hturn.waits
  have hmem : f ∈ fs ++ i.machine.firings fuel := by
    rw [hlast]
    exact List.mem_append_right _ (List.mem_append_right _ (List.mem_singleton_self f))
  have hscheduled := ((h.fires hfires).1.finished f hmem).schedules.timers
  refine ⟨?_, front, f, earlier, later, hlast, Ended.raised?_eq_some_iff.1 hd, hsplit, ?_⟩
  · rw [Firing.outcome, hfailed]
    rfl
  · rw [hafter, hscheduled, hbefore]

/-- Over a whole session timers are fired in the order of their deadlines and numbers, each at
most once, and all of them before the event loop returns, if no callback fails; each callback is
finished, with all the work that it lets wait, before the next timer is fired; the clock never
goes back; and when a callback fails, only its timer is gone. -/
theorem session_fires_in_order (htimers : i.machine.timers = []) (hlevels : i.machine.levels = [])
    (hs : Session i ts fs i') :
  FiresInOrder i ts fs i'
  := by
  have hstart : Account i.machine.scheduled [] [] i.machine :=
    ⟨.of_nil htimers, hlevels, fun _ h => absurd h List.not_mem_nil⟩
  obtain ⟨haccount, -⟩ := hs.account hstart
  rw [List.nil_append, List.nil_append] at haccount
  exact {
    numbers := haccount.table.numbers
    count := haccount.table.count
    once := haccount.table.once
    increasing := haccount.table.increasing
    finished := haccount.finished
    clock := fun _ _ _ hnext => (hnext.account haccount).2
    loop := fun _ _ _ hloop => haccount.loop hloop
    all := by
      intro fuel r i'' hloop hok
      obtain ⟨hfires, rfl⟩ := haccount.loop hloop
      have hnone : i''.machine.timers = [] := hfires.timers_eq_nil hok
      have honce := (haccount.fires hfires).1.table.once
      rw [hnone, List.append_nil] at honce
      refine ⟨?_, hnone, honce⟩
      rw [Firing.outcome, List.findSome?_eq_none_iff.2 hok, Nat.zero_add]
      rfl
    failed := fun _ _ _ hloop _ hfailed => haccount.failed hloop hfailed }

section ticking

/-- An interpreter in which coroutines can be started and timers scheduled. -/
def ticking : Interpreter :=
  { bare with
    machine := { Machine.empty with
      globals := [
        ("run", .native (.primitive (.coroutine .run))),
        ("delay", .native (.timer .delay))] } }

/-- A text that schedules a timer, then one that is due at once and whose callback schedules
another one, and starts a coroutine that waits for two timers in turn. -/
def tiedDelays : String :=
  "(delay 5 1 (fn [v] v) nil)
   (delay 0 2 (fn [v] (delay 0 v (fn [w] w) nil)) nil)
   (run (async (do (await delay 0 3) (await delay 5 4))) (fn [v] v) (fn [e] e))"

/-- The deadlines and the numbers of the timers that are fired after a text has been evaluated. -/
def firedAfter? (fuel : Nat) (source : String) (i : Interpreter) : Option (List (Nat × Nat)) := do
  let i₁ ← left? ((Command.eval source).request fuel) i
  let _ ← left? (fireTimers fuel) i₁
  return (i₁.machine.firings fuel).map fun f => (f.timer.deadline, f.timer.order)

/-- The five timers of the text are fired in order. -/
theorem tiedDelays_fire_in_order :
  ∃ ts fs i', Session ticking ts fs i' ∧
    fs.map (fun f => (f.timer.deadline, f.timer.order)) = [(0, 2), (0, 3), (0, 4), (5, 1), (5, 5)] ∧
    FiresInOrder ticking ts fs i'
  := by
  have hcheck : firedAfter? 60 tiedDelays ticking =
      some [(0, 2), (0, 3), (0, 4), (5, 1), (5, 5)] := by decide +kernel
  obtain ⟨i₁, heval, hcheck⟩ := Option.bind_eq_some_iff.1 hcheck
  obtain ⟨i₂, hloop, hcheck⟩ := Option.bind_eq_some_iff.1 hcheck
  obtain ⟨_, heval⟩ := ends_of_left? heval
  obtain ⟨_, hloop⟩ := ends_of_left? hloop
  have hs := (Session.start.command (.eval tiedDelays) 60 heval).loop 60 hloop
  exact ⟨_, _, i₂, hs, Option.some.inj hcheck, session_fires_in_order rfl rfl hs⟩

end ticking

end Skein
