import Skein.Proofs.Escaping

/-!
# The context of a callback

A coroutine delivers its result by a call of one of its continuations.  In a level the callback
waits from then on; outside of all levels it is called at once, in a level of its own.  Whenever
a level comes to it, and whatever the context of the level is then, the callback is called in the
context in which the result was delivered.

So a callback that comes to no thunk behaves the same wherever it is called from.  When it comes to
a thunk, its call alone is in the context of the delivery, and the thunk takes its steps in the
context of the level.
-/

namespace Skein

open Run Trampoline

variable {m m₁ m' : Machine} {snapshot context : Context Value} {callback v : Value}
  {ended r : Ended Value}

/-! ### Deliveries that are done -/

/-- What a call leads to in a context: the condition that it has raised, or what its value comes
to when it takes its steps there. -/
inductive Unwound (context : Context Value) :
    Ended Value → Machine → Ended Value → Machine → Prop where
  | raised (d : Condition Value) (m : Machine) :
    Unwound context (.error d) m (.error d) { m with context }
  | stepped {u : Value} {m m' : Machine} {r : Ended Value}
    (h : u.ForceEnds { m with context } r m') : Unwound context (.ok u) m r m'

/-- A call that has come to no thunk leads nowhere else. -/
theorem unwound_iff (hdone : ∀ u, ended = .ok u → u.isThunk = false) :
  Unwound context ended m₁ r m' ↔ r = ended ∧ m' = { m₁ with context }
  := by
  constructor
  · rintro (⟨d, m₁⟩ | hforce)
    · exact ⟨rfl, rfl⟩
    · exact hforce.gives_unique (Value.Forces.value (hdone _ rfl) _)
  · rintro ⟨rfl, rfl⟩
    cases r with
    | error d => exact .raised d m₁
    | ok u => exact .stepped (Value.Forces.value (hdone u rfl) _)

/-- A delivery comes to what the call of its callback leads to.  The call is in the context of the
delivery, and then the context of the level is back. -/
theorem Work.comesTo_delivery_iff :
  (Work.delivery snapshot callback v).ComesTo m r m' ↔
    ∃ ended m₁, callback.CallEnds [v] { m with context := snapshot } ended m₁ ∧
      Unwound m.context ended m₁ r m'
  := by
  constructor
  · rintro ⟨n, h⟩
    have hn := h n n (Nat.le_refl n) (Nat.le_refl n)
    rcases gives_bind_iff.1 hn with ⟨u, m₂, hperform, hforce⟩ | ⟨d, rfl, hperform⟩
    · obtain ⟨m₁, hcall, rfl⟩ := gives_entering_iff.1 hperform
      exact ⟨.ok u, m₁, Value.callEnds_of_gives n hcall,
        .stepped (Value.forceEnds_of_gives n hforce)⟩
    · obtain ⟨m₁, hcall, rfl⟩ := gives_entering_iff.1 hperform
      exact ⟨.error d, m₁, Value.callEnds_of_gives n hcall, .raised d m₁⟩
  · rintro ⟨ended, m₁, hcall, hleads⟩
    cases hleads with
    | raised d =>
      exact hcall.mono fun _ _ hcall => (gives_entering_iff.2 ⟨m₁, hcall, rfl⟩).bind_error
    | stepped hforce =>
      exact (hcall.and hforce).mono fun _ _ ⟨hcall, hforce⟩ =>
        (gives_entering_iff.2 ⟨m₁, hcall, rfl⟩).bind hforce

/-! ### Deliveries outside of all levels -/

/-- Outside of all levels, no work waits. -/
theorem Machine.gives_enqueue_outside (hl : m.levels = []) (work : Work) :
  (Run.enqueue work).Gives m (.ok false) m
  := by
  obtain ⟨_, _, _, _, _⟩ := m
  cases hl
  rfl

/-- Outside of all levels, a coroutine's continuation settles its execution, and what it delivers
is done at once, in a level of its own. -/
theorem callEnds_settle_outside (i id : Nat) (outcome : Outcome)
    {late : Option (Condition Value)} {m₂ : Machine} (hl : m.levels = [])
    (hdone : (Work.delivery m.context callback v).ComesTo
      { m.finished id outcome with levels := [⟨[], 0⟩] } r m₁)
    (hclears : m₁.Clears late m₂) :
  (Value.native (.settle i id outcome callback)).CallEnds [v] m (settled r late)
    { m₂ with levels := m₂.levels.tail }
  := by
  have hlevels : (m.finished id outcome).levels = [] := hl
  have hstart : Eventually fun c f =>
      (perform (Value.call c) (.delivery m.context callback v) >>= force (Value.call c) f).Gives
        { m.finished id outcome with
          levels := ⟨[], 0⟩ :: (m.finished id outcome).levels } r m₁ := by
    rw [hlevels]
    exact hdone
  obtain ⟨n, hbounce⟩ := bounce_gives hstart hclears
  apply Expr.callEnds_native
  refine ⟨n, fun c _ hc _ => ?_⟩
  have hfinish : (Run.finish id outcome).Gives m
      (.ok (!((m.heap.state? id).getD .running).isTerminal)) (m.finished id outcome) := rfl
  have harity : (Run.checkArity (.exactly 1) outcome.continuationName [v]).Gives m (.ok ()) m :=
    rfl
  apply harity.bind
  apply hfinish.bind
  apply (m.finished id outcome).gives_capture.bind
  apply (Machine.gives_enqueue_outside hlevels _).bind
  exact hbounce c c hc hc

/-! ### Callbacks -/

/-- The callback for the result of a coroutine runs in the context in which the result was
delivered.  Where the continuation of the coroutine is called, on the machine `m`, the result
waits with the context of `m` in the innermost level; outside of all levels it is delivered at
once.  Whenever it is delivered, on any machine `m₁`, the callback is called on this machine in the
context of `m`.  If that comes to no thunk, the delivery has come to the same, on the same machine,
in whatever context the level is that delivers.  If it comes to a thunk, the delivery comes to what
the steps of the thunk come to, which are taken in the context of the level. -/
theorem callback_runs_in_context_of_delivery (i id : Nat) (outcome : Outcome)
    (callback v : Value) (m : Machine) :
  (∀ queue steps levels, m.levels = ⟨queue, steps⟩ :: levels →
    (Value.native (.settle i id outcome callback)).CallEnds [v] m (.ok .nil)
      { m.finished id outcome with
        levels := ⟨queue ++ [.delivery m.context callback v], steps⟩ :: levels }) ∧
  (m.levels = [] → ∀ r m₁ late m₂,
    (Work.delivery m.context callback v).ComesTo
      { m.finished id outcome with levels := [⟨[], 0⟩] } r m₁ →
    m₁.Clears late m₂ →
    (Value.native (.settle i id outcome callback)).CallEnds [v] m (settled r late)
      { m₂ with levels := m₂.levels.tail }) ∧
  ∀ m₁ : Machine,
    (∀ r m', (Work.delivery m.context callback v).ComesTo m₁ r m' →
      ∃ ended m₂, callback.CallEnds [v] { m₁ with context := m.context } ended m₂) ∧
    ∀ ended m₂, callback.CallEnds [v] { m₁ with context := m.context } ended m₂ →
      ((∀ u, ended = .ok u → u.isThunk = false) → ∀ context r m',
        (Work.delivery m.context callback v).ComesTo { m₁ with context } r m' ↔
          r = ended ∧ m' = { m₂ with context }) ∧
      ∀ u, ended = .ok u → ∀ context r m',
        (Work.delivery m.context callback v).ComesTo { m₁ with context } r m' ↔
          u.ForceEnds { m₂ with context } r m'
  := by
  refine ⟨fun _ _ _ hl => callEnds_settle i id outcome callback v hl,
    fun hl _ _ _ _ hdone hclears => callEnds_settle_outside i id outcome hl hdone hclears,
    fun m₁ => ⟨fun r m' hdone => ?_, fun ended m₂ hcall => ?_⟩⟩
  · obtain ⟨ended, m₂, hcall, -⟩ := Work.comesTo_delivery_iff.1 hdone
    exact ⟨ended, m₂, hcall⟩
  · -- the context of the level does not matter for the call, which is in another one
    have hleads : ∀ context r m',
        (Work.delivery m.context callback v).ComesTo { m₁ with context } r m' ↔
          Unwound context ended m₂ r m' := by
      intro context r m'
      rw [Work.comesTo_delivery_iff]
      constructor
      · rintro ⟨ended', m₂', hcall', hleads⟩
        obtain ⟨rfl, rfl⟩ := hcall.gives_unique hcall'
        exact hleads
      · exact fun hleads => ⟨ended, m₂, hcall, hleads⟩
    constructor
    · intro hdone context r m'
      rw [hleads, unwound_iff hdone]
    · rintro u rfl context r m'
      rw [hleads]
      exact ⟨fun h => by cases h; assumption, .stepped⟩

/-! ### A callback that looks a name up -/

section asking

/-- A context in which a name is bound. -/
def boundTo (n : Int64) : Context Value := Context.empty.push [("x", .scalar (.int n))]

/-- A callback that looks the name up. -/
def asking : Value := .closure 0 none ["v"] (.var "x") []

/-- A callback that gives a thunk of such a lookup. -/
def askingLater : Value :=
  .closure 0 none ["v"] (.var "later") [("later", .thunk 1 (.closure 2 none [] (.var "x") []))]

/-- The callback finds the binding of the delivery in whatever context the level is, and the thunk
finds the binding of the level. -/
theorem asking_sees_delivery :
  (∀ context : Context Value, (Work.delivery (boundTo 1) asking .nil).ComesTo
    { Machine.empty with context } (.ok (.scalar (.int 1))) { Machine.empty with context }) ∧
  (Work.delivery (boundTo 1) askingLater .nil).ComesTo { Machine.empty with context := boundTo 0 }
    (.ok (.scalar (.int 0))) { Machine.empty with context := boundTo 0 }
  := by
  let m : Machine := { Machine.empty with context := boundTo 1 }
  constructor
  · have hcall : asking.CallEnds [.nil] m (.ok (.scalar (.int 1))) m :=
      Value.callEnds_of_gives 3 rfl
    have hdelivers := (callback_runs_in_context_of_delivery 0 1 .completed asking .nil m).2.2
    have hdone : ∀ u, (.ok (.scalar (.int 1)) : Ended Value) = .ok u → u.isThunk = false := by
      rintro _ ⟨⟩
      rfl
    exact fun context =>
      (((hdelivers .empty).2 _ m hcall).1 hdone context _ _).2 ⟨rfl, rfl⟩
  · have hcall : askingLater.CallEnds [.nil] m
        (.ok (.thunk 1 (.closure 2 none [] (.var "x") []))) m := Value.callEnds_of_gives 3 rfl
    have hdelivers := (callback_runs_in_context_of_delivery 0 1 .completed askingLater .nil m).2.2
    have hforce : (Value.thunk 1 (.closure 2 none [] (.var "x") [])).ForceEnds
        { m with context := boundTo 0 } (.ok (.scalar (.int 0))) { m with context := boundTo 0 } :=
      Value.forceEnds_of_gives 4 rfl
    exact (((hdelivers .empty).2 _ m hcall).2 _ rfl (boundTo 0) _ _).2 hforce

end asking

end Skein
