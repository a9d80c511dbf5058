import Skein.Eval

/-!
# How computations end

A computation ends when it gives a value or raises a condition; a computation that stops
with a fault or runs out of fuel does not end.  `Run.Gives` says how a computation ends,
and `Run.Below` that a computation ends in every way in which another one does.
-/

namespace Skein

/-- The end of a computation: a value, or the condition that was raised. -/
abbrev Ended (α : Type) := Except (Condition Value) α

namespace Run

variable {α β : Type}

/-- A computation ends with a result and leaves a machine. -/
def Gives (act : Run α) (m : Machine) (r : Ended α) (m' : Machine) : Prop :=
  act m = match r with
    | .ok a => .ok a m'
    | .error c => .error (.raised c) m'

/-! ### The operations of the monad -/

/-- One computation after another. -/
theorem bind_apply (act : Run α) (k : α → Run β) (m : Machine) :
  (act >>= k) m = match act m with
    | .ok a m => k a m
    | .error stop m => .error stop m
  := by
  change EStateM.bind act k m = _
  unfold EStateM.bind
  cases act m <;> rfl

/-- A value ends as that value. -/
theorem gives_pure (a : α) (m : Machine) :
  Gives (pure a) m (.ok a) m
  := rfl

/-- Raising a condition ends with it. -/
theorem gives_raise (c : Condition Value) (m : Machine) :
  Gives (raiseCondition c : Run α) m (.error c) m
  := rfl

/-- What is finished ends as it is. -/
theorem gives_ofExcept (r : Ended α) (m : Machine) :
  Gives (ofExcept r) m r m
  := by
  cases r <;> rfl

/-- A computation and its continuation, where the first gives a value. -/
theorem Gives.bind {act : Run α} {k : α → Run β} {m m₁ m₂ : Machine} {a : α} {r : Ended β}
    (h : act.Gives m (.ok a) m₁) (hk : (k a).Gives m₁ r m₂) :
  (act >>= k).Gives m r m₂
  := by
  unfold Gives at h
  unfold Gives
  rw [bind_apply, h]
  exact hk

/-- A computation and its continuation, where the first raises a condition. -/
theorem Gives.bind_error {act : Run α} {k : α → Run β} {m m₁ : Machine} {c : Condition Value}
    (h : act.Gives m (.error c) m₁) :
  (act >>= k).Gives m (.error c) m₁
  := by
  unfold Gives at h
  unfold Gives
  rw [bind_apply, h]

/-- How a computation with a continuation ends. -/
theorem gives_bind_iff {act : Run α} {k : α → Run β} {m m₂ : Machine} {r : Ended β} :
  (act >>= k).Gives m r m₂ ↔
    (∃ a m₁, act.Gives m (.ok a) m₁ ∧ (k a).Gives m₁ r m₂) ∨
    (∃ c, r = .error c ∧ act.Gives m (.error c) m₂)
  := by
  constructor
  · intro h
    unfold Gives at h
    rw [bind_apply] at h
    cases ha : act m with
    | ok a m₁ =>
      rw [ha] at h
      exact .inl ⟨a, m₁, ha, h⟩
    | error stop m₁ =>
      rw [ha] at h
      cases r with
      | ok b => cases h
      | error c =>
        cases h
        exact .inr ⟨c, rfl, ha⟩
  · rintro (⟨a, m₁, ha, hk⟩ | ⟨c, rfl, ha⟩)
    · exact ha.bind hk
    · exact ha.bind_error

/-- A computation ends in at most one way. -/
theorem Gives.unique {act : Run α} {m m₁ m₂ : Machine} {r s : Ended α}
    (h : act.Gives m r m₁) (h' : act.Gives m s m₂) :
  r = s ∧ m₁ = m₂
  := by
  unfold Gives at h h'
  rw [h] at h'
  cases r <;> cases s <;> cases h' <;> exact ⟨rfl, rfl⟩

/-- Running to the end always gives a value: the end. -/
theorem Gives.attempt {act : Run α} {m m₁ : Machine} {r : Ended α} (h : act.Gives m r m₁) :
  act.attempt.Gives m (.ok r) m₁
  := by
  unfold Gives at h
  cases r <;> simp only [Gives, Run.attempt, h]

/-- What running to the end gives is the end. -/
theorem gives_attempt_iff {act : Run α} {m m₁ : Machine} {r : Ended (Ended α)} :
  act.attempt.Gives m r m₁ ↔ ∃ s, r = .ok s ∧ act.Gives m s m₁
  := by
  constructor
  · intro h
    unfold Gives Run.attempt at h
    cases ha : act m with
    | ok a m₂ =>
      rw [ha] at h
      cases r <;> cases h
      exact ⟨.ok a, rfl, ha⟩
    | error stop m₂ =>
      rw [ha] at h
      cases stop <;> cases r <;> cases h
      exact ⟨.error _, rfl, ha⟩
  · rintro ⟨s, rfl, h⟩
    exact h.attempt

/-- Running to the end raises no condition. -/
theorem attempt_ne_raised (act : Run α) (m m' : Machine) (c : Condition Value) :
  act.attempt m ≠ .error (.raised c) m'
  := by
  intro h
  have hgives : act.attempt.Gives m (.error c) m' := h
  obtain ⟨_, hr, _⟩ := gives_attempt_iff.1 hgives
  cases hr

/-- A computation in a context goes back to the context before it. -/
theorem gives_entering_iff {c : Context Value} {act : Run α} {m m₂ : Machine} {r : Ended α} :
  (entering c act).Gives m r m₂ ↔
    ∃ m₁, act.Gives { m with context := c } r m₁ ∧ m₂ = { m₁ with context := m.context }
  := by
  constructor
  · intro h
    unfold Gives entering at h
    dsimp only at h
    split at h <;> rename_i ha <;> cases r <;> cases h
    · exact ⟨_, ha, rfl⟩
    · exact ⟨_, ha, rfl⟩
  · rintro ⟨m₁, ha, rfl⟩
    unfold Gives at ha
    cases r <;> simp only [Gives, entering, ha]

/-- A computation outside of every level goes back to the levels before it. -/
theorem gives_outside_iff {act : Run α} {m m₂ : Machine} {r : Ended α} :
  (outside act).Gives m r m₂ ↔
    ∃ m₁, act.Gives { m with levels := [] } r m₁ ∧ m₂ = { m₁ with levels := m.levels }
  := by
  constructor
  · intro h
    unfold Gives outside at h
    dsimp only at h
    split at h <;> rename_i ha <;> cases r <;> cases h
    · exact ⟨_, ha, rfl⟩
    · exact ⟨_, ha, rfl⟩
  · rintro ⟨m₁, ha, rfl⟩
    unfold Gives at ha
    cases r <;> simp only [Gives, outside, ha]

/-! ### Computations below others -/

/-- A computation is below another one that ends in every way in which it ends. -/
def Below (act act' : Run α) : Prop := ∀ m r m', act.Gives m r m' → act'.Gives m r m'

namespace Below

/-- A computation is below itself. -/
@[refl] theorem refl (act : Run α) :
  Below act act
  := by
  intro m r m' h
  exact h

/-- Below is transitive. -/
theorem trans {act act' act'' : Run α} (h : Below act act') (h' : Below act' act'') :
  Below act act''
  := by
  intro m r m' ha
  exact h' m r m' (h m r m' ha)

/-- A computation that runs out of fuel at once is below all others. -/
theorem exhausted (act : Run α) :
  Below (throw .exhausted) act
  := by
  intro m r m' h
  cases r <;> cases h

/-- Continuations keep computations below. -/
theorem bind {act act' : Run α} {k k' : α → Run β} (h : Below act act')
    (hk : ∀ a, Below (k a) (k' a)) :
  Below (act >>= k) (act' >>= k')
  := by
  intro m r m' hr
  rcases gives_bind_iff.1 hr with ⟨a, m₁, ha, hr⟩ | ⟨c, rfl, ha⟩
  · exact (h m _ m₁ ha).bind (hk a m₁ r m' hr)
  · exact (h m _ m' ha).bind_error

/-- Running to the end keeps computations below. -/
theorem attempt {act act' : Run α} (h : Below act act') :
  Below act.attempt act'.attempt
  := by
  intro m r m' hr
  obtain ⟨s, rfl, ha⟩ := gives_attempt_iff.1 hr
  exact (h m s m' ha).attempt

/-- A context keeps computations below. -/
theorem entering {act act' : Run α} (c : Context Value) (h : Below act act') :
  Below (entering c act) (Run.entering c act')
  := by
  intro m r m' hr
  obtain ⟨m₁, ha, rfl⟩ := gives_entering_iff.1 hr
  exact gives_entering_iff.2 ⟨m₁, h _ r m₁ ha, rfl⟩

/-- Going outside of every level keeps computations below. -/
theorem outside {act act' : Run α} (h : Below act act') :
  Below (outside act) (Run.outside act')
  := by
  intro m r m' hr
  obtain ⟨m₁, ha, rfl⟩ := gives_outside_iff.1 hr
  exact gives_outside_iff.2 ⟨m₁, h _ r m₁ ha, rfl⟩

end Below

end Run

/-! ### Levels of the trampoline -/

namespace Trampoline

open Run

/-- What a level comes to: the condition that was raised first, or the value. -/
def settled (result : Except (Condition Value) Value)
    (late : Option (Condition Value)) : Except (Condition Value) Value :=
  match result, late with
  | .ok v, none => .ok v
  | .ok _, some c => .error c
  | .error c, _ => .error c

/-- A level of its own, step by step. -/
theorem bounce_apply (call : Call) (fuel : Nat) (start : Run Value) (m : Machine) :
  bounce call fuel start m =
    match (start >>= force call fuel).attempt { m with levels := ⟨[], 0⟩ :: m.levels } with
    | .error stop m₁ => .error stop m₁
    | .ok result m₁ =>
      match runWaiting call fuel none m₁ with
      | .error stop m₂ => .error stop m₂
      | .ok late m₂ =>
        ofExcept (settled result late) { m₂ with levels := m₂.levels.tail }
  := by
  unfold bounce
  rw [bind_apply]
  change ((start >>= force call fuel).attempt >>= _) { m with levels := ⟨[], 0⟩ :: m.levels } = _
  rw [bind_apply]
  generalize (start >>= force call fuel).attempt { m with levels := ⟨[], 0⟩ :: m.levels } = r
  cases r with
  | error stop m₁ => rfl
  | ok result m₁ =>
    dsimp only
    rw [bind_apply]
    generalize runWaiting call fuel none m₁ = r
    cases r with
    | error stop m₂ => rfl
    | ok late m₂ => cases result <;> cases late <;> rfl

/-- What a level comes to that has been opened for a computation. -/
def inLevel (call : Call) (fuel : Nat) (start : Run Value) : Run (Ended Value) := do
  let result ← (start >>= force call fuel).attempt
  let late ← runWaiting call fuel none
  return settled result late

/-- A computation in a level of its own opens a level, and closes it when it has come to
something. -/
theorem bounce_eq (call : Call) (fuel : Nat) (start : Run Value) (m : Machine) :
  bounce call fuel start m =
    (inLevel call fuel start >>= fun r => closeLevel >>= fun _ => ofExcept r)
      { m with levels := ⟨[], 0⟩ :: m.levels }
  := by
  rw [bounce_apply, bind_apply, inLevel, bind_apply]
  generalize (start >>= force call fuel).attempt { m with levels := ⟨[], 0⟩ :: m.levels } = r
  cases r with
  | error stop m₁ => rfl
  | ok result m₁ =>
    dsimp only
    rw [bind_apply]
    generalize runWaiting call fuel none m₁ = r
    cases r <;> rfl

/-- Doing work that waits never raises a condition. -/
theorem runWaiting_ne_raised (call : Call) (fuel : Nat)
    (first : Option (Condition Value)) (m m' : Machine) (c : Condition Value) :
  runWaiting call fuel first m ≠ .error (.raised c) m'
  := by
  intro h
  have hgives : (runWaiting call fuel first).Gives m (.error c) m' := h
  clear h
  induction fuel generalizing first m with
  | zero => cases hgives
  | succ fuel ih =>
    rcases gives_bind_iff.1 hgives with ⟨o, m₁, _, hgives⟩ | ⟨_, _, hd⟩
    · rcases o with _ | work
      · cases hgives
      · rcases gives_bind_iff.1 hgives with ⟨r, m₂, _, hgives⟩ | ⟨_, _, ha⟩
        · rcases first with _ | c₁ <;> rcases r with c₂ | v
          · exact ih _ _ hgives
          · exact ih _ _ hgives
          · exact ih _ _ hgives
          · exact ih _ _ hgives
        · obtain ⟨_, hr, _⟩ := gives_attempt_iff.1 ha
          cases hr
    · unfold Gives Run.dequeue at hd
      cases hd

/-- What a level comes to is never raised. -/
theorem inLevel_ne_raised (call : Call) (fuel : Nat) (start : Run Value) (m m' : Machine)
    (c : Condition Value) :
  inLevel call fuel start m ≠ .error (.raised c) m'
  := by
  intro h
  have hgives : (inLevel call fuel start).Gives m (.error c) m' := h
  rcases gives_bind_iff.1 hgives with ⟨result, m₁, _, hgives⟩ | ⟨_, _, hattempt⟩
  · rcases gives_bind_iff.1 hgives with ⟨late, m₂, _, hpure⟩ | ⟨d, _, hwaiting⟩
    · cases hpure
    · exact runWaiting_ne_raised _ _ _ _ _ _ hwaiting
  · obtain ⟨_, hr, _⟩ := gives_attempt_iff.1 hattempt
    cases hr

/-- What a coroutine that is started does first, in the level of the start. -/
def startWith (call : Call) (own : Nat) (coroutine success failure : Value) : Run Value := do
  match ← Run.attempt (call coroutine [success, failure]) with
  | .ok v => return v
  | .error d =>
    if (← Run.executionState own).isTerminal then Run.raiseCondition d
    else call failure [.condition d]

end Trampoline

end Skein
