import Skein.Proofs.Simulation.Await

/-!
# Runs to their end

A run with suspensions that comes to an end is what the trampoline does.  The thunks are
forced in the level that they came to, the work that waits in the level is done before the
level is closed, and a delivery that was left for later is made after it, in a level of its
own.
-/

namespace Skein

open Trampoline

variable {v w u : Value} {m m₁ m₂ m' : Machine} {r : Ended Value} {s : Ended Unit}
  {late : Option (Condition Value)}

/-! ### Levels -/

/-- The steps that a value takes end with a value that is no thunk. -/
def Value.Forces (v : Value) (m : Machine) (w : Value) (m' : Machine) : Prop :=
  Eventually fun c f => (force (Value.call c) f v).Gives m (.ok w) m'

/-- The work that waits in the innermost level gets done; the condition that is raised first
while it is, if one is. -/
def Machine.Clears (m : Machine) (late : Option (Condition Value)) (m' : Machine) : Prop :=
  Eventually fun c f => (runWaiting (Value.call c) f none).Gives m (.ok late) m'

/-- Steps are not counted when they are not limited. -/
theorem gives_step (hlimit : m.limit = none) :
  Run.step.Gives m (.ok ()) m
  := by
  obtain ⟨_, _, _, _, _⟩ := m
  cases hlimit
  rfl

/-- A value that is no thunk takes no step. -/
theorem Value.Forces.value (hv : v.isThunk = false) (m : Machine) :
  v.Forces m v m
  := by
  refine ⟨1, fun c f _ hf => ?_⟩
  obtain ⟨f, rfl⟩ := Nat.exists_eq_add_of_le' hf
  cases v with
  | thunk id f => cases hv
  | _ => rfl

/-- A thunk takes its step, and the steps of what it comes to. -/
theorem Value.Forces.thunk {id : Nat} {f : Value} (hlimit : m.limit = none)
    (h : f.CallEnds [] m (.ok u) m₁) (hu : u.Forces m₁ w m') :
  (Value.thunk id f).Forces m w m'
  := by
  apply (h.and hu).succ
  rintro c n ⟨h, hu⟩
  exact (gives_step hlimit).bind (h.bind hu)

/-- In an empty level, nothing is to be done. -/
theorem Machine.Clears.empty {steps : Nat} {levels : List Level}
    (hl : m.levels = ⟨[], steps⟩ :: levels) :
  m.Clears none m
  := by
  refine ⟨1, fun c f _ hf => ?_⟩
  obtain ⟨f, rfl⟩ := Nat.exists_eq_add_of_le' hf
  obtain ⟨_, _, _, _, _⟩ := m
  cases hl
  rfl

/-- The first work of a level is taken. -/
theorem gives_dequeue {work : Work} {queue : List Work} {steps : Nat} {levels : List Level}
    (hl : m.levels = ⟨work :: queue, steps⟩ :: levels) :
  Run.dequeue.Gives m (.ok (some work)) { m with levels := ⟨queue, steps⟩ :: levels }
  := by
  obtain ⟨_, _, _, _, _⟩ := m
  cases hl
  rfl

/-- The first work of a level is done, and then the rest. -/
theorem Machine.Clears.work {work : Work} {queue : List Work} {steps : Nat}
    {levels : List Level} (hl : m.levels = ⟨work :: queue, steps⟩ :: levels)
    (hlimit : m.limit = none)
    (h : Eventually fun c _ => (perform (Value.call c) work).Gives
      { m with levels := ⟨queue, steps⟩ :: levels } (.ok v) m₁)
    (hforces : v.Forces m₁ w m₂) (hclears : m₂.Clears late m') :
  m.Clears late m'
  := by
  apply (h.and (hforces.and hclears)).succ
  rintro c n ⟨h, hforces, hclears⟩
  apply (gives_dequeue hl).bind
  have hstep := gives_step (m := { m with levels := ⟨queue, steps⟩ :: levels }) hlimit
  apply (hstep.bind (h.bind hforces)).attempt.bind
  exact hclears

/-- A level in which a computation has ended and the work that waits has been done. -/
theorem inLevel_gives {start : Nat → Nat → Run Value}
    (hstart : Eventually fun c f => (start c f >>= force (Value.call c) f).Gives m r m₁)
    (hlate : m₁.Clears late m₂) :
  Eventually fun c f => (inLevel (Value.call c) f (start c f)).Gives m (.ok (settled r late)) m₂
  := by
  apply (hstart.and hlate).mono
  rintro c f ⟨hstart, hlate⟩
  exact hstart.attempt.bind (hlate.bind (Run.gives_pure _ _))

/-- A computation in a level of its own. -/
theorem bounce_gives {start : Nat → Nat → Run Value}
    (hstart : Eventually fun c f => (start c f >>= force (Value.call c) f).Gives
      { m with levels := ⟨[], 0⟩ :: m.levels } r m₁)
    (hlate : m₁.Clears late m₂) :
  Eventually fun c f => (bounce (Value.call c) f (start c f)).Gives m (settled r late)
    { m₂ with levels := m₂.levels.tail }
  := by
  apply (inLevel_gives hstart hlate).mono
  intro c f hlevel
  unfold Run.Gives
  rw [bounce_eq]
  have hclose : Run.closeLevel.Gives m₂ (.ok ()) { m₂ with levels := m₂.levels.tail } := rfl
  exact hlevel.bind (hclose.bind (Run.gives_ofExcept _ _))

/-! ### Steps in the context of a suspension -/

/-- What a step in a context comes to is wrapped in the context. -/
inductive Wraps : Option (Context Value) → Value → Machine → Value → Machine → Prop where
  | none {v : Value} {m : Machine} : Wraps none v m v m
  | some {snapshot : Context Value} {v v' : Value} {m m' : Machine} (c : Context Value)
    (h : (inContext snapshot v).Gives { m with context := c } (.ok v') m') :
    Wraps (some snapshot) v m v' m'

/-- A value that is no thunk needs no context. -/
theorem Wraps.eq {wrap : Option (Context Value)} {v' : Value} (h : Wraps wrap v m v' m')
    (hv : v.isThunk = false) :
  v' = v ∧ ∃ c, m' = { m with context := c }
  := by
  cases h with
  | none => exact ⟨rfl, m.context, rfl⟩
  | @some snapshot _ _ _ _ c h =>
    have hpure : (inContext snapshot v).Gives { m with context := c } (.ok v)
        { m with context := c } := by
      cases v with
      | thunk id f => cases hv
      | _ => rfl
    obtain ⟨hv', rfl⟩ := h.unique hpure
    cases hv'
    exact ⟨rfl, c, rfl⟩

/-- Every value can be wrapped in a context. -/
theorem exists_inContext (snapshot : Context Value) (v : Value) (m : Machine) :
  ∃ v' m', (inContext snapshot v).Gives m (.ok v') m'
  := by
  cases v <;> exact ⟨_, _, rfl⟩

/-- A thunk in a context is a thunk of a function that takes the step in the context. -/
theorem inContext_thunk (snapshot : Context Value) (id : Nat) (f : Value) (m : Machine) :
  (inContext snapshot (.thunk id f)).Gives m
    (.ok (.thunk (m.nextId + 1) (.native (.inContext m.nextId snapshot f))))
    { m with nextId := m.nextId + 2 }
  := rfl

/-- A step that is taken in a context. -/
theorem callEnds_inContext (id : Nat) {snapshot : Context Value} {f v' : Value}
    (h : f.CallEnds [] { m with context := snapshot } (.ok v) m₁)
    (hv : (inContext snapshot v).Gives { m₁ with context := m.context } (.ok v') m') :
  (Value.native (.inContext id snapshot f)).CallEnds [] m (.ok v') m'
  := by
  apply Expr.callEnds_native
  apply h.mono
  intro c _ h
  apply (Run.gives_entering_iff.2 ⟨m₁, h, rfl⟩).bind
  exact hv

/-- Work that was suspended is done in the context of the suspension. -/
theorem perform_resumption {snapshot : Context Value} {k arg v' : Value}
    (h : k.CallEnds [arg] (m.goOn snapshot) (.ok v) m₁)
    (hv : (inContext snapshot v).Gives { m₁ with context := m.context } (.ok v') m') :
  Eventually fun c _ =>
    (perform (Value.call c) (.resumption snapshot k arg)).Gives m (.ok v') m'
  := by
  apply h.mono
  intro c _ h
  have hstate : (Run.changeStateIn snapshot .running).Gives { m with context := snapshot }
      (.ok ()) (m.goOn snapshot) := Machine.gives_changeStateIn _ _ _
  have hcall : (do
      Run.changeStateIn snapshot .running
      Value.call c k [arg]).Gives { m with context := snapshot } (.ok v) m₁ := hstate.bind h
  apply (Run.gives_entering_iff.2 ⟨m₁, hcall, rfl⟩).bind
  exact hv

/-! ### What follows a level -/

/-- What follows a level: the condition that it has come to is raised; when there is none, the
deliveries that are late are made. -/
def follow (call : Call) (fuel : Nat) : Option (Condition Value) → Run Unit
  | some d => Run.raiseCondition d
  | none => Instrument.deliverAll call fuel

/-- What follows a level that has come to `late` ends. -/
def Machine.Follows (m : Machine) (late : Option (Condition Value)) (s : Ended Unit)
    (m' : Machine) : Prop :=
  Eventually fun c f => (follow (Value.call c) f late).Gives m s m'

/-- No delivery is late. -/
theorem takePending_none (hp : m.stage.pending = []) :
  Instrument.takePending.Gives m (.ok none) m
  := by
  obtain ⟨_, _, _, _, _, _, _, _, _, _, _, ⟨_, _, pending, _, _, _⟩⟩ := m
  cases hp
  rfl

/-- The first delivery that is late. -/
theorem takePending_some {next : Value × Value} {rest : List (Value × Value)}
    (hp : m.stage.pending = next :: rest) :
  Instrument.takePending.Gives m (.ok (some next))
    { m with stage := { m.stage with pending := rest } }
  := by
  obtain ⟨_, _, _, _, _, _, _, _, _, _, _, ⟨_, _, pending, _, _, _⟩⟩ := m
  cases hp
  rfl

/-- Nothing follows a level when no delivery is late. -/
theorem Machine.Follows.nothing (hp : m.stage.pending = []) :
  m.Follows none (.ok ()) m
  := by
  refine ⟨1, fun c f _ hf => ?_⟩
  obtain ⟨f, rfl⟩ := Nat.exists_eq_add_of_le' hf
  exact (takePending_none hp).bind (Run.gives_pure _ _)

/-- Only a condition that a level has come to follows it. -/
theorem Machine.Follows.raised {d : Condition Value} (h : m.Follows (some d) s m') :
  s = .error d ∧ m' = m
  := by
  obtain ⟨n, h⟩ := h
  exact (h n n (Nat.le_refl n) (Nat.le_refl n)).unique (Run.gives_raise d m)

/-- The only delivery that is late is made in a level of its own, and then what follows
that level. -/
theorem Machine.Follows.delivery {target arg : Value} (hp : m.stage.pending = [(target, arg)])
    (hcall : target.CallEnds [arg]
      { m with levels := [], stage := { m.stage with pending := [] } } (settled (.ok w) late) m₁)
    (hfollow : { m₁ with levels := m.levels }.Follows late s m') :
  m.Follows none s m'
  := by
  apply (hcall.and hfollow).succ
  rintro c f ⟨hcall, hfollow⟩
  apply (takePending_some hp).bind
  have houtside : (Run.outside (Value.call c target [arg])).Gives
      { m with stage := { m.stage with pending := [] } } (settled (.ok w) late)
      { m₁ with levels := m.levels } := Run.gives_outside_iff.2 ⟨m₁, hcall, rfl⟩
  cases late with
  | none => exact houtside.bind hfollow
  | some d =>
    obtain ⟨rfl, rfl⟩ := hfollow.unique (Run.gives_raise d _)
    exact houtside.bind_error

/-- A late delivery is made in a level of its own. -/
theorem Resumes.ends {target arg k v' : Value} {snapshot : Context Value}
    (h : Resumes target arg snapshot k) (hl : m.levels = [])
    (hk : k.CallEnds [arg] ({ m with levels := [⟨[], 0⟩] }.goOn snapshot) (.ok v) m₁)
    (hv : (inContext snapshot v).Gives { m₁ with context := m.context } (.ok v') m₂)
    {m₃ : Machine} (hforces : v'.Forces m₂ w m₃) (hclears : m₃.Clears late m') :
  target.CallEnds [arg] m (settled (.ok w) late) { m' with levels := m'.levels.tail }
  := by
  have hchange := m.gives_changeStateIn snapshot .resumed
  have henqueue : (Run.enqueue (.resumption snapshot k arg)).Gives (m.changed snapshot .resumed)
      (.ok false) (m.changed snapshot .resumed) := by
    obtain ⟨_, _, _, _, _⟩ := m
    cases hl
    rfl
  have hgo : { m.changed snapshot .resumed with
      levels := ⟨[], 0⟩ :: (m.changed snapshot .resumed).levels }.goOn snapshot =
      { m with levels := [⟨[], 0⟩] }.goOn snapshot := by
    have hresumed : ExecutionState.resumed.isTerminal = false := rfl
    have hheap := m.heap.changed_changed snapshot .running hresumed
    unfold Machine.goOn Machine.changed
    dsimp only
    rw [hheap, hl]
  rw [← hgo] at hk
  have hstart := ((perform_resumption hk hv).and hforces).mono
    fun _ _ ⟨hperform, hforces⟩ => hperform.bind hforces
  obtain ⟨n, hbounce⟩ := bounce_gives (m := m.changed snapshot .resumed) hstart hclears
  refine ⟨n + 1, fun c _ hc _ => ?_⟩
  obtain ⟨c, rfl⟩ := Nat.exists_eq_add_of_le' hc
  rw [← Nat.add_assoc, h.call_eq]
  apply hchange.bind
  apply henqueue.bind
  exact hbounce (c + n) (c + n) (Nat.le_add_left n c) (Nat.le_add_left n c)

/-- A value takes its steps, the work that waits in the level is done and the level is closed;
what follows is what follows a level that leaves `m'` with `late`. -/
def Value.Comes (close : Machine → Machine) (v : Value) (m : Machine)
    (late : Option (Condition Value)) (m' : Machine) : Prop :=
  ∃ w m₁ late₁ m₂ levels context, v.Forces m w m₁ ∧ m₁.Clears late₁ m₂ ∧
    ∀ s m'', { m' with levels, context }.Follows late s m'' → (close m₂).Follows late₁ s m''

/-! ### The end -/

/-- A run that goes on to an end comes to a machine on which its level is still open, and what
follows is what follows that level. -/
theorem Rest.arrives {G : Aim} {wrap : Option (Context Value)} {v' : Value} (h : Rest G wrap v m)
    (hwraps : Wraps wrap v m v' m') (close : Machine → Machine)
    (hclose : ∀ m, ∃ levels context, close m = { m with levels, context }) :
  ∃ wrap' v₂ m₂ c, G wrap' v₂ m₂ ∧ ∀ late m₃, { m₂ with context := c }.Clears late m₃ →
    v'.Comes close m' late m₃
  := by
  induction h generalizing v' m' close with
  | @again wrap id f u m m₁ hlimit h hr ih =>
    cases hwraps with
    | none =>
      obtain ⟨wrap', v₂, m₂, c, hg, harrives⟩ := ih .none close hclose
      refine ⟨wrap', v₂, m₂, c, hg, fun late m₃ hclears => ?_⟩
      obtain ⟨w, m₄, late₁, m₅, levels, context, hforces, hrest⟩ := harrives late m₃ hclears
      exact ⟨w, m₄, late₁, m₅, levels, context, .thunk hlimit h hforces, hrest⟩
    | @some snapshot _ _ _ _ c hwrap =>
      obtain ⟨hv', rfl⟩ := hwrap.unique (inContext_thunk snapshot id f _)
      cases hv'
      obtain ⟨u', m₂, hu⟩ := exists_inContext snapshot u { m₁ with context := c }
      have hcall := callEnds_inContext (m := { m with context := c, nextId := m.nextId + 2 })
        m.nextId h hu
      obtain ⟨wrap', v₂, m₃, c', hg, harrives⟩ := ih (.some c hu) close hclose
      refine ⟨wrap', v₂, m₃, c', hg, fun late m₄ hclears => ?_⟩
      obtain ⟨w, m₅, late₁, m₆, levels, context, hforces, hrest⟩ := harrives late m₄ hclears
      exact ⟨w, m₅, late₁, m₆, levels, context, .thunk hlimit hcall hforces, hrest⟩
  | @resumed wrap v k arg u snapshot steps levels m m₁ hlimit hv hl hp h hr ih =>
    obtain ⟨rfl, c, rfl⟩ := hwraps.eq hv
    obtain ⟨u', m₂, hu⟩ := exists_inContext snapshot u { m₁ with context := c }
    obtain ⟨wrap', v₂, m₃, c', hg, harrives⟩ := ih (.some c hu) close hclose
    refine ⟨wrap', v₂, m₃, c', hg, fun late m₄ hclears => ?_⟩
    obtain ⟨w, m₅, late₁, m₆, levels', context, hforces, hclears, hfollow⟩ :=
      harrives late m₄ hclears
    have hwork : { m with context := c }.Clears late₁ m₆ :=
      .work hl hlimit (perform_resumption h hu) hforces hclears
    exact ⟨v', _, late₁, m₆, levels', context, .value hv _, hwork, hfollow⟩
  | @late wrap v target k arg u snapshot steps levels m m₁ hv hl hp ht h hr ih =>
    obtain ⟨rfl, c, rfl⟩ := hwraps.eq hv
    obtain ⟨levels', context, hclosed⟩ := hclose { m with context := c }
    obtain ⟨u', m₂, hu⟩ := exists_inContext snapshot u { m₁ with context }
    obtain ⟨wrap', v₂, m₃, c', hg, harrives⟩ := ih (.some context hu)
      (fun m => { m with levels := levels' }) fun m => ⟨levels', m.context, rfl⟩
    refine ⟨wrap', v₂, m₃, c', hg, fun late m₄ hclears => ?_⟩
    obtain ⟨w, m₅, late₁, m₆, levels'', context', hforces, hclears, hfollow⟩ :=
      harrives late m₄ hclears
    refine ⟨v', _, none, _, levels'', context', .value hv _, .empty hl, fun s m'' hs => ?_⟩
    rw [hclosed]
    have hcall := ht.ends
      (m := { m with levels := [], context, stage := { m.stage with pending := [] } }) rfl h hu
      hforces hclears
    exact .delivery hp hcall (hfollow s m'' hs)
  | @settled wrap v m hv hg =>
    obtain ⟨rfl, c, rfl⟩ := hwraps.eq hv
    refine ⟨wrap, _, m, c, hg, fun late m₃ hclears => ?_⟩
    obtain ⟨levels, context, hclosed⟩ := hclose m₃
    refine ⟨v', _, late, m₃, levels, context, .value hv _, hclears, fun s m'' hs => ?_⟩
    rw [hclosed]
    exact hs

end Skein
