import Skein.Proofs.Meaning
import Skein.Proofs.Regime.Everything

/-!
# Errors at the start of a coroutine

A coroutine is started in a level of the trampoline of its own: it is called, the thunks that
it returns are forced, and the work that waits in the level is done.  A condition that the
call raises before a result has been delivered is handed to the callback for errors.  One
that a thunk raises is not: it leaves through the start.
-/

namespace Skein

open Run Trampoline

variable {m m₁ m₂ m' : Machine} {v w coroutine resolve reject : Value} {d : Condition Value}

namespace Machine

/-- An execution has not been settled. -/
def Unsettled (m : Machine) (id : Nat) : Prop :=
  ((m.heap.state? id).getD .running).isTerminal = false

end Machine

/-- Taking the steps of a value ends: with a value that is no thunk, or with the condition
that a step raises. -/
def Value.ForceEnds (v : Value) (m : Machine) (r : Ended Value) (m' : Machine) : Prop :=
  Eventually fun c f => (force (Value.call c) f v).Gives m r m'

/-- Taking steps leaves a later machine. -/
theorem Value.ForceEnds.later {r : Ended Value} (h : v.ForceEnds m r m') :
  m.Later m'
  := by
  obtain ⟨n, h⟩ := h
  exact force_later (h n n (Nat.le_refl n) (Nat.le_refl n))

/-- Doing the work that waits leaves a later machine. -/
theorem Machine.Clears.later {late : Option (Condition Value)} (h : m.Clears late m') :
  m.Later m'
  := by
  obtain ⟨n, h⟩ := h
  exact runWaiting_later (h n n (Nat.le_refl n) (Nat.le_refl n))

/-- A level in which only a callback waits that returns normally gets done: the callback is
called once. -/
theorem Machine.Clears.delivery {snapshot : Context Value} {f arg u : Value} {steps : Nat}
    {levels : List Level} (hlimit : m.limit = none)
    (hl : m.levels = ⟨[.delivery snapshot f arg], steps⟩ :: levels)
    (hcall : f.CallEnds [arg] { m with levels := ⟨[], steps⟩ :: levels, context := snapshot }
      (.ok u) m₁)
    (hforces : u.Forces { m₁ with context := m.context } w m₂) (hclears : m₂.Clears none m') :
  m.Clears none m'
  := .work hl hlimit (hcall.mono fun _ _ h => gives_entering_iff.2 ⟨_, h, rfl⟩) hforces hclears

/-! ### Levels -/

/-- A function as an argument. -/
theorem checkFunction_gives {name : String} (hv : v.isCallable = true) :
  (Argument.checkFunction name v).Gives m (.ok ()) m
  := by
  unfold Argument.checkFunction
  rw [if_pos hv]
  exact gives_pure () m

/-- Starting a coroutine comes to what its level comes to. -/
theorem run_ends {r : Ended Value} {late : Option (Condition Value)}
    (hcoroutine : coroutine.isCallable = true) (hresolve : resolve.isCallable = true)
    (hreject : reject.isCallable = true)
    (hstart : Eventually fun c f => (startWith (Value.call c) m.nextExecution coroutine
      (m.successFor resolve) (m.failureFor reject) >>= force (Value.call c) f).Gives m.launched
      r m₁)
    (hlate : m₁.Clears late m₂) :
  (Value.native (.primitive (.coroutine .run))).CallEnds [coroutine, resolve, reject] m
    ((settled r late).map fun _ => .execution m.nextExecution)
    { m₂ with levels := m₂.levels.tail, context := m.context }
  := by
  obtain ⟨n, hstarts⟩ := start_ends hstart hlate
  apply Expr.callEnds_native
  refine ⟨n, fun c _ hc _ => ?_⟩
  have hstarts := hstarts c c hc hc
  have harity : (checkArity (Primitive.coroutine .run).arity (Primitive.coroutine .run).name
      [coroutine, resolve, reject]).Gives m (.ok ()) m := rfl
  apply harity.bind
  apply (checkFunction_gives hcoroutine).bind
  apply (checkFunction_gives hresolve).bind
  apply (checkFunction_gives hreject).bind
  cases hr : settled r late with
  | ok w =>
    rw [hr] at hstarts
    exact hstarts.bind (gives_pure _ _)
  | error d =>
    rw [hr] at hstarts
    exact hstarts.bind_error

/-! ### Conditions -/

/-- An execution is in a heap when it has a state. -/
theorem Heap.bounds_of_state? {h : Heap} {id : Nat} {s : ExecutionState}
    (hs : h.state? id = some s) :
  0 < id ∧ id ≤ h.executions.size
  := by
  rw [Heap.state?] at hs
  split at hs
  · cases hs
  · rename_i hid
    obtain ⟨hlt, -⟩ := Array.getElem?_eq_some_iff.1 hs
    omega

/-- The execution that is started next runs on the machine on which its coroutine is called. -/
theorem Machine.launched_state? (m : Machine) :
  m.launched.heap.state? m.nextExecution = some .running
  := by
  rw [Heap.state?, nextExecution, if_neg (Nat.succ_ne_zero _), Nat.add_sub_cancel]
  exact Array.getElem?_push_size

/-- Settling an execution that has been started and was not settled settles it for good. -/
theorem Machine.finished_for_good {levels : List Level} {outcome : Outcome}
    {late : Option (Condition Value)} (hlater : m.launched.Later m₁)
    (hopen : m₁.Unsettled m.nextExecution)
    (hlate : Machine.Clears { m₁.finished m.nextExecution outcome with levels } late m₂) :
  m₂.heap.state? m.nextExecution = some (.settled outcome)
  := by
  obtain ⟨s, hs, -⟩ := hlater.heap _ _ m.launched_state?
  obtain ⟨hpos, hsize⟩ := Heap.bounds_of_state? hs
  have hfinished : (m₁.finished m.nextExecution outcome).heap.state? m.nextExecution =
      some (.settled outcome) := by
    apply m₁.finished_state? outcome hpos hsize
    intro state hstate
    rw [Machine.Unsettled, hstate] at hopen
    exact hopen
  obtain ⟨s', hs', hkept⟩ := hlate.later.heap _ _ hfinished
  rw [hs', hkept rfl]

/-- A condition that the call of a coroutine raises is handed to its second continuation,
whose value takes its steps. -/
theorem startWith_continue {own : Nat} {success failure : Value} {r : Ended Value}
    (hcall : coroutine.CallEnds [success, failure] m (.error d) m₁) (hopen : m₁.Unsettled own)
    (hfailure : failure.CallEnds [.condition d] m₁ (.ok v) m₂) (hforce : v.ForceEnds m₂ r m') :
  Eventually fun c f => (startWith (Value.call c) own coroutine success failure >>=
    force (Value.call c) f).Gives m r m'
  := by
  apply ((hcall.and hfailure).and hforce).mono
  rintro c f ⟨⟨hcall, hfailure⟩, hforce⟩
  have hstate : (Run.executionState own).Gives m₁ (.ok ((m₁.heap.state? own).getD .running))
      m₁ := rfl
  have hstart : (startWith (Value.call c) own coroutine success failure).Gives m (.ok v) m₂ := by
    apply hcall.attempt.bind
    apply hstate.bind
    rw [if_neg]
    · exact hfailure
    · rw [Bool.not_eq_true]
      exact hopen
  exact hstart.bind hforce

/-- A condition that a step of the value of a coroutine raises comes out of the step. -/
theorem startWith_force {own : Nat} {success failure : Value} {r : Ended Value}
    (hcall : coroutine.CallEnds [success, failure] m (.ok v) m₁) (hforce : v.ForceEnds m₁ r m₂) :
  Eventually fun c f => (startWith (Value.call c) own coroutine success failure >>=
    force (Value.call c) f).Gives m r m₂
  := by
  apply (hcall.and hforce).mono
  rintro c f ⟨hcall, hforce⟩
  have hstart : (startWith (Value.call c) own coroutine success failure).Gives m (.ok v) m₁ := by
    apply hcall.attempt.bind
    exact gives_pure _ _
  exact hstart.bind hforce

/-- Of the conditions that the start of a coroutine meets before a result is delivered, the
one that the call raises goes to the callback for errors, as the last work of the level and
once, and the execution has failed for good; one that a step of the value of the call raises
leaves through the start, whatever the work that waits comes to. -/
theorem run_rejects_only_what_call_raises (hcoroutine : coroutine.isCallable = true)
    (hresolve : resolve.isCallable = true) (hreject : reject.isCallable = true) :
  (coroutine.CallEnds [m.successFor resolve, m.failureFor reject] m.launched (.error d) m₁ →
    m₁.Unsettled m.nextExecution →
    ∃ queue steps, m₁.levels = ⟨queue, steps⟩ :: m.levels ∧
      ∀ late m₂, Machine.Clears { m₁.finished m.nextExecution .failed with
          levels := ⟨queue ++ [.delivery m₁.context reject (.condition d)], steps⟩ :: m.levels }
          late m₂ →
        m₂.heap.state? m.nextExecution = some (.settled .failed) ∧
        (Value.native (.primitive (.coroutine .run))).CallEnds [coroutine, resolve, reject] m
          ((settled (.ok .nil) late).map fun _ => .execution m.nextExecution)
          { m₂ with levels := m.levels, context := m.context }) ∧
  ∀ v, coroutine.CallEnds [m.successFor resolve, m.failureFor reject] m.launched (.ok v) m₁ →
    ∀ m₂, v.ForceEnds m₁ (.error d) m₂ → ∀ late m₃, m₂.Clears late m₃ →
      (Value.native (.primitive (.coroutine .run))).CallEnds [coroutine, resolve, reject] m
        (.error d) { m₃ with levels := m.levels, context := m.context }
  := by
  constructor
  · intro hcall hopen
    have hlevels : m.launched.levels = ⟨[], 0⟩ :: m.levels := rfl
    obtain ⟨queue, steps, hl⟩ := hcall.later.levels_eq hlevels
    refine ⟨queue, steps, hl, fun late m₂ hlate => ?_⟩
    refine ⟨Machine.finished_for_good hcall.later hopen hlate, ?_⟩
    have hsettle := callEnds_settle (m.nextId + 1) m.nextExecution .failed reject (.condition d) hl
    have hends := run_ends hcoroutine hresolve hreject
      (startWith_continue hcall hopen hsettle (Value.Forces.value rfl _)) hlate
    rw [hlate.later.outer] at hends
    exact hends
  · intro v hcall m₂ hforce late m₃ hlate
    have hends := run_ends hcoroutine hresolve hreject (startWith_force hcall hforce) hlate
    have houter := (hlate.later.outer.trans hforce.later.outer).trans hcall.later.outer
    rw [houter] at hends
    exact hends

/-! ### A coroutine that fails at its start -/

section failing

/-- A call ends as it does with some amount of fuel. -/
theorem Value.callEnds_of_gives {vs : List Value} {r : Ended Value} (fuel : Nat)
    (h : (Value.call fuel v vs).Gives m r m₁) :
  v.CallEnds vs m r m₁
  := ⟨fuel, fun _ _ hc _ => Value.call_below hc v vs _ _ _ h⟩

/-- Taking steps ends as it does with some amount of fuel. -/
theorem Value.forceEnds_of_gives {r : Ended Value} (fuel : Nat)
    (h : (force (Value.call fuel) fuel v).Gives m r m₁) :
  v.ForceEnds m r m₁
  := ⟨fuel, fun _ _ hc hf => force_below (Value.call_below hc) hf v _ _ _ h⟩

/-- The work that waits gets done as it does with some amount of fuel. -/
theorem Machine.clears_of_gives {late : Option (Condition Value)} (fuel : Nat)
    (h : (runWaiting (Value.call fuel) fuel none).Gives m (.ok late) m₁) :
  m.Clears late m₁
  := ⟨fuel, fun _ _ hc hf => runWaiting_below (Value.call_below hc) hf none _ _ _ h⟩

/-- A function of two continuations that looks up a name which is not defined. -/
def failingCoroutine : Value := .closure 0 none ["k", "f"] (.var "missing") []

/-- A function of two continuations that gives a thunk of such a lookup. -/
def laterFailingCoroutine : Value :=
  .closure 0 none ["k", "f"] (.var "later")
    [("later", .thunk 1 (.closure 2 none [] (.var "missing") []))]

/-- The condition of a lookup of a name which is not defined. -/
def missing : Condition Value :=
  ⟨.undefinedVariable, "undefined variable: missing", .symbol "missing"⟩

/-- The callbacks of the stage for the start of a coroutine. -/
def receiver (outcome : Outcome) : Value := .native (.instrument 0 (.receive outcome))

/-- A callback of the stage returns normally. -/
theorem receiver_ends (outcome : Outcome) (v : Value) (m : Machine) :
  (receiver outcome).CallEnds [v] m (.ok .nil) (m.receiving outcome v)
  := Value.callEnds_of_gives 1 rfl

/-- The condition that the call raises is the only result that is received, and the one that a
step raises leaves through the start and is not received. -/
theorem failingCoroutine_rejects :
  (∃ m, (Value.native (.primitive (.coroutine .run))).CallEnds
      [failingCoroutine, receiver .completed, receiver .failed] .empty (.ok (.execution 1)) m ∧
    m.heap.state? 1 = some (.settled .failed) ∧
    m.stage.results = [(.failed, .condition missing)]) ∧
  (∃ m, (Value.native (.primitive (.coroutine .run))).CallEnds
      [laterFailingCoroutine, receiver .completed, receiver .failed] .empty (.error missing) m ∧
    m.heap.state? 1 = some .running ∧ m.stage.results = [])
  := by
  constructor
  · have hcall : failingCoroutine.CallEnds [Machine.empty.successFor (receiver .completed),
        Machine.empty.failureFor (receiver .failed)] Machine.empty.launched (.error missing)
        Machine.empty.launched := Value.callEnds_of_gives 3 rfl
    obtain ⟨queue, steps, hl, h⟩ :=
      (run_rejects_only_what_call_raises rfl rfl rfl).1 hcall rfl
    cases hl
    obtain ⟨hstate, hends⟩ := h none _
      (.delivery rfl rfl (receiver_ends _ _ _) (.value rfl _) (.empty rfl))
    exact ⟨_, hends, hstate, rfl⟩
  · have hcall : laterFailingCoroutine.CallEnds [Machine.empty.successFor (receiver .completed),
        Machine.empty.failureFor (receiver .failed)] Machine.empty.launched
        (.ok (.thunk 1 (.closure 2 none [] (.var "missing") []))) Machine.empty.launched :=
      Value.callEnds_of_gives 3 rfl
    have hforce : (Value.thunk 1 (.closure 2 none [] (.var "missing") [])).ForceEnds
        Machine.empty.launched (.error missing) Machine.empty.launched :=
      Value.forceEnds_of_gives 4 rfl
    have hclears : Machine.empty.launched.Clears none Machine.empty.launched :=
      Machine.clears_of_gives 1 rfl
    exact ⟨_, (run_rejects_only_what_call_raises rfl rfl rfl).2 _ hcall _ hforce none _ hclears,
      rfl, rfl⟩

end failing

end Skein
