import Skein.Proofs.Metered.Launch

/-!
# The turns of a level

In a turn of a level one thunk is forced or one piece of work is done.  A level first unwinds what
its computation has given, and then drains the work that waits in it: it does the first piece and
unwinds what that has given, until no work waits.

A level that may take `limit` steps takes its turns one after another, as long as there is one to
take, but at most `limit` turns.  When there is still one to take, it takes none any more: the work
that waits is dropped, and the level comes to the condition that was raised first, which is the one
about the limit if there is no other.
-/

namespace Skein

open Run

variable {α β : Type} {limit fuel : Nat} {m m₁ m₂ : Machine} {steps : Nat} {levels : List Level}
  {queue : List Work}

/-! ### Turns -/

/-- Count a step of the innermost level, and refuse none. -/
def Run.tally : Run Unit := fun m =>
  match m.levels with
  | ⟨queue, steps⟩ :: levels => .ok () { m with levels := ⟨queue, steps + 1⟩ :: levels }
  | [] => .ok () m

namespace Trampoline

/-- How far a level has come. -/
inductive Progress where
  /-- It unwinds what its computation has given: a thunk is to be forced. -/
  | unwinding (resume : Value)
  /-- Its computation has come to a result, and its work has raised a condition first, if any; it
  unwinds what a piece of work has given: a thunk is to be forced. -/
  | forcing (result : Ended Value) (first : Option (Condition Value)) (resume : Value)
  /-- Its computation has come to a result, and its work has raised a condition first, if any; the
  next piece of work is to be done. -/
  | draining (result : Ended Value) (first : Option (Condition Value))

/-- The condition that was raised first, when work has come to something. -/
def earlier (first : Option (Condition Value)) : Ended Value → Option (Condition Value)
  | .ok _ => first
  | .error c => first <|> some c

namespace Progress

/-- How far a level has come whose computation has come to something. -/
def begun : Ended Value → Progress
  | .ok (.thunk _ resume) => unwinding resume
  | result => draining result none

/-- How far a level has come when a piece of its work has come to something. -/
def worked (result : Ended Value) (first : Option (Condition Value)) : Ended Value → Progress
  | .ok (.thunk _ resume) => forcing result first resume
  | r => draining result (earlier first r)

/-- Take a turn, if there is one to take. -/
def turn (call : Call) : Progress → Run (Option Progress)
  | unwinding resume => do
    Run.tally
    return some (begun (← Run.attempt (call resume [])))
  | forcing result first resume => do
    Run.tally
    return some (worked result first (← Run.attempt (call resume [])))
  | draining result first => do
    match ← Run.dequeue with
    | none => return none
    | some work =>
      Run.tally
      return some (worked result first (← Run.attempt (perform call work)))

/-- Take turns as long as there is one to take, but at most `turns` of them. -/
def advance (call : Call) : (turns : Nat) → Progress → Run Progress
  | 0, p => return p
  | turns + 1, p => do
    match ← p.turn call with
    | none => return p
    | some p => advance call turns p

/-- Whether there is a turn to take, when this work waits. -/
def hasTurn (queue : List Work) : Progress → Bool
  | draining _ _ => !queue.isEmpty
  | _ => true

/-- The condition to which the level comes, if one has been raised. -/
def raised? : Progress → Option (Condition Value)
  | unwinding _ => none
  | forcing result first _ | draining result first =>
    match result with
    | .error c => some c
    | .ok _ => first

/-- What a level comes to that takes no turn any more, when this work waits. -/
def outcome (limit : Nat) : Progress → List Work → Ended Value
  | draining result first, [] => settled result first
  | p, _ => .error (p.raised?.getD (Run.tooManySteps limit))

/-- Close a level that takes no turn any more. -/
def close (limit : Nat) (p : Progress) : Run Value := fun m =>
  Run.ofExcept (p.outcome limit ((m.levels.head?.map (·.queue)).getD []))
    { m with levels := m.levels.tail }

end Progress

/-- Open a level for a computation, and take its turns, but at most `turns` of them. -/
def afterTurns (turns : Nat) (call : Call) (start : Run Value) : Run Progress := do
  Run.openLevel
  let result ← Run.attempt start
  Progress.advance call turns (.begun result)

end Trampoline

open Trampoline

/-! ### Counting a turn -/

/-- A step is counted. -/
theorem Run.tally_cons (hl : m.levels = ⟨queue, steps⟩ :: levels) :
  Run.tally m = .ok () { m with levels := ⟨queue, steps + 1⟩ :: levels }
  := by
  unfold Run.tally
  rw [hl]

/-- Below the limit a step is counted. -/
theorem Run.step_allowed (hlimit : m.limit = some limit)
    (hl : m.levels = ⟨queue, steps⟩ :: levels) (hsteps : steps < limit) :
  Run.step m = .ok () { m with levels := ⟨queue, steps + 1⟩ :: levels }
  := by
  rw [step_of_limit hlimit, countTo_cons _ hl, if_pos hsteps]

/-- At the limit a step is refused. -/
theorem Run.step_refused (hlimit : m.limit = some limit)
    (hl : m.levels = ⟨queue, steps⟩ :: levels) (hsteps : limit ≤ steps) :
  Run.step m =
    .error (.raised (tooManySteps limit)) { m with levels := ⟨queue, steps + 1⟩ :: levels }
  := by
  rw [step_of_limit hlimit, countTo_cons _ hl, if_neg (Nat.not_lt.2 hsteps)]

/-- Taking work from a level in which none waits. -/
theorem Run.dequeue_nil (hl : m.levels = ⟨[], steps⟩ :: levels) :
  Run.dequeue m = .ok none m
  := by
  obtain ⟨_, _, _, _, _⟩ := m
  cases hl
  rfl

/-- Taking the work that waits first. -/
theorem Run.dequeue_cons {work : Work} (hl : m.levels = ⟨work :: queue, steps⟩ :: levels) :
  Run.dequeue m = .ok (some work) { m with levels := ⟨queue, steps⟩ :: levels }
  := by
  obtain ⟨_, _, _, _, _⟩ := m
  cases hl
  rfl

/-! ### Running to the end -/

/-- A computation after something that has given a value. -/
theorem Run.bind_of_ok {act : Run α} {a : α} (k : α → Run β) (h : act m = .ok a m₁) :
  (act >>= k) m = k a m₁
  := by
  rw [bind_apply, h]

/-- A computation after something that has stopped. -/
theorem Run.bind_of_error {act : Run α} {stop : Stop} (k : α → Run β)
    (h : act m = .error stop m₁) :
  (act >>= k) m = .error stop m₁
  := by
  rw [bind_apply, h]

/-- Running to the end, after something that has given a value. -/
theorem Run.attempt_bind_of_ok {act : Run α} {a : α} (k : α → Run β) (h : act m = .ok a m₁) :
  (act >>= k).attempt m = (k a).attempt m₁
  := by
  unfold Run.attempt
  rw [bind_of_ok k h]

/-- Running to the end, after something that has raised a condition. -/
theorem Run.attempt_bind_of_raised {act : Run α} {c : Condition Value} (k : α → Run β)
    (h : act m = .error (.raised c) m₁) :
  (act >>= k).attempt m = .ok (.error c) m₁
  := by
  unfold Run.attempt
  rw [bind_of_error k h]

/-- Running to the end what comes after something that is run to the end. -/
theorem Run.attempt_bind (act : Run α) (k : α → Run β) :
  (act >>= k).attempt = act.attempt >>= fun r => (ofExcept r >>= k).attempt
  := by
  funext m
  rw [bind_apply]
  unfold Run.attempt
  rw [bind_apply]
  cases act m with
  | ok a m₁ => rfl
  | error stop m₁ => cases stop <;> rfl

/-! ### The loops of a level -/

namespace Trampoline

variable {call : Call}

/-- Doing the work that waits, of which the first piece is taken. -/
theorem runWaiting_succ (fuel : Nat) (first : Option (Condition Value)) :
  runWaiting call (fuel + 1) first = (Run.dequeue >>= fun
    | none => pure first
    | some work => (do
        Run.step
        let v ← perform call work
        force call fuel v : Run Value).attempt >>= fun r =>
      runWaiting call fuel (earlier first r))
  := by
  funext m
  rw [runWaiting, bind_apply, bind_apply]
  generalize Run.dequeue m = taken
  rcases taken with ⟨_ | work, m₁⟩ | ⟨stop, m₁⟩
  · rfl
  · dsimp only
    rw [bind_apply, bind_apply]
    generalize Run.attempt _ m₁ = ended
    rcases ended with ⟨r, m₂⟩ | ⟨stop, m₂⟩
    · cases first <;> cases r <;> rfl
    · rfl
  · rfl

namespace Progress

/-- What a level still does that has come so far: it unwinds what it has been given with some fuel,
and drains the work that waits with some other fuel. -/
def rest (call : Call) (fuel fuel' : Nat) : Progress → Run (Ended Value)
  | unwinding resume => do
    let result ← (force call fuel (.thunk 0 resume)).attempt
    return settled result (← runWaiting call fuel' none)
  | forcing result first resume => do
    let r ← (force call fuel (.thunk 0 resume)).attempt
    return settled result (← runWaiting call fuel' (earlier first r))
  | draining result first => return settled result (← runWaiting call fuel' first)

/-- What a level still does when its computation has come to something. -/
theorem begun_rest {n : Nat} (hn : 0 < n) (fuel' : Nat) (r : Ended Value) :
  ((ofExcept r >>= force call n).attempt >>= fun result => do
    return settled result (← runWaiting call fuel' none)) = (begun r).rest call n fuel'
  := by
  obtain ⟨n, rfl⟩ := Nat.exists_eq_add_of_lt hn
  rcases r with c | v
  · rfl
  · cases v <;> rfl

/-- What a level still does when a piece of its work has come to something. -/
theorem worked_rest {n : Nat} (hn : 0 < n) (fuel' : Nat) (result : Ended Value)
    (first : Option (Condition Value)) (r : Ended Value) :
  ((ofExcept r >>= force call n).attempt >>= fun r => do
    return settled result (← runWaiting call fuel' (earlier first r))) =
      (worked result first r).rest call n fuel'
  := by
  obtain ⟨n, rfl⟩ := Nat.exists_eq_add_of_lt hn
  rcases r with c | v
  · rfl
  · cases v <;> rfl

/-! ### One turn -/

/-- The limit allows a turn: its step is counted, and what it comes to is unwound. -/
theorem step_attempt (hlimit : m.limit = some limit) (hl : m.levels = ⟨queue, steps⟩ :: levels)
    (hsteps : steps < limit) (act : Run Value) (k : Ended Value → Run (Ended Value)) :
  ((Run.step >>= fun _ => act >>= force call fuel).attempt >>= k) m =
    (act.attempt >>= fun r => (ofExcept r >>= force call fuel).attempt >>= k)
      { m with levels := ⟨queue, steps + 1⟩ :: levels }
  := by
  rw [bind_apply, attempt_bind_of_ok _ (step_allowed hlimit hl hsteps), attempt_bind, ← bind_apply,
    bind_assoc]

/-- A turn is counted, and leads further. -/
theorem tally_attempt (hl : m.levels = ⟨queue, steps⟩ :: levels) (act : Run Value)
    (next : Ended Value → Progress) (k : Option Progress → Run β) :
  ((do
    Run.tally
    return some (next (← act.attempt)) : Run (Option Progress)) >>= k) m =
      (act.attempt >>= fun r => k (some (next r)))
        { m with levels := ⟨queue, steps + 1⟩ :: levels }
  := by
  rw [bind_assoc, bind_of_ok _ (tally_cons hl), bind_assoc]
  rfl

/-- When no work waits, there is no turn to take. -/
theorem turn_draining_nil (hl : m.levels = ⟨[], steps⟩ :: levels) (result : Ended Value)
    (first : Option (Condition Value)) :
  (draining result first).turn call m = .ok none m
  := bind_of_ok _ (dequeue_nil hl)

/-- When work waits, it is taken. -/
theorem turn_draining_cons {work : Work} (hl : m.levels = ⟨work :: queue, steps⟩ :: levels)
    (result : Ended Value) (first : Option (Condition Value)) (k : Option Progress → Run β) :
  ((draining result first).turn call >>= k) m =
    ((perform call work).attempt >>= fun r => k (some (worked result first r)))
      { m with levels := ⟨queue, steps + 1⟩ :: levels }
  := by
  rw [turn, bind_assoc, bind_of_ok _ (dequeue_cons hl)]
  exact tally_attempt rfl _ _ k

/-- As long as the limit allows it, a level takes a turn, if there is one, and does the rest. -/
theorem rest_turn (hlimit : m.limit = some limit) (hl : m.levels = ⟨queue, steps⟩ :: levels)
    (hsteps : steps < limit) (p : Progress) {n fuel' : Nat} (hn : 0 < n) (hfuel : n < fuel)
    (hfuel' : n < fuel') :
  ∃ f f', n ≤ f ∧ n ≤ f' ∧ p.rest call fuel fuel' m = (p.turn call >>= fun
    | none => pure (p.outcome limit [])
    | some p => p.rest call f f') m
  := by
  obtain ⟨f, rfl⟩ := Nat.exists_eq_add_of_lt hfuel
  obtain ⟨f', rfl⟩ := Nat.exists_eq_add_of_lt hfuel'
  have hf : 0 < n + f := by omega
  have hf' : 0 < n + f' := by omega
  cases p with
  | unwinding resume =>
    refine ⟨n + f, n + f' + 1, by omega, by omega, ?_⟩
    rw [turn, tally_attempt hl]
    refine (step_attempt hlimit hl hsteps (call resume []) _).trans ?_
    simp only [begun_rest hf]
  | forcing result first resume =>
    refine ⟨n + f, n + f' + 1, by omega, by omega, ?_⟩
    rw [turn, tally_attempt hl]
    refine (step_attempt hlimit hl hsteps (call resume []) _).trans ?_
    simp only [worked_rest hf]
  | draining result first =>
    refine ⟨n + f', n + f', by omega, by omega, ?_⟩
    rw [rest, runWaiting_succ, bind_assoc]
    cases queue with
    | nil =>
      rw [bind_of_ok _ (dequeue_nil hl), bind_of_ok _ (turn_draining_nil hl result first)]
      rfl
    | cons work queue =>
      let taken : Machine := { m with levels := ⟨queue, steps⟩ :: levels }
      rw [bind_of_ok _ (dequeue_cons hl), turn_draining_cons hl, bind_assoc]
      refine (step_attempt (m := taken) hlimit rfl hsteps (perform call work) _).trans ?_
      simp only [worked_rest hf']
      rfl

/-! ### At the limit -/

/-- The condition that was raised first, when the work that waits is refused. -/
def refusing (limit : Nat) (first : Option (Condition Value)) :
    List Work → Option (Condition Value)
  | [] => first
  | _ :: _ => first <|> some (tooManySteps limit)

/-- At the limit all work that waits is dropped, and nothing is called. -/
theorem runWaiting_refused (call : Call) (hlimit : m.limit = some limit)
    (hl : m.levels = ⟨queue, steps⟩ :: levels) (hsteps : limit ≤ steps)
    (first : Option (Condition Value)) (hfuel : queue.length < fuel) :
  ∃ steps', runWaiting call fuel first m =
    .ok (refusing limit first queue) { m with levels := ⟨[], steps'⟩ :: levels }
  := by
  obtain ⟨fuel, rfl⟩ := Nat.exists_eq_add_of_lt hfuel
  induction queue generalizing first m steps with
  | nil =>
    refine ⟨steps, ?_⟩
    rw [runWaiting_succ, bind_of_ok _ (dequeue_nil hl)]
    obtain ⟨_, _, _, _, _⟩ := m
    cases hl
    rfl
  | cons work queue ih =>
    let taken : Machine := { m with levels := ⟨queue, steps⟩ :: levels }
    let refused : Machine := { m with levels := ⟨queue, steps + 1⟩ :: levels }
    have hrefused : (Run.step >>= fun _ => perform call work >>=
        force call (queue.length + fuel + 1)).attempt taken =
          .ok (.error (tooManySteps limit)) refused :=
      attempt_bind_of_raised _ (step_refused hlimit rfl hsteps)
    obtain ⟨steps', hrest⟩ := ih (m := refused) hlimit rfl (Nat.le_succ_of_le hsteps)
      (first <|> some (tooManySteps limit)) (Nat.lt_succ_of_le (Nat.le_add_right _ fuel))
    have hfirst : refusing limit (first <|> some (tooManySteps limit)) queue =
        refusing limit first (work :: queue) := by
      cases queue <;> cases first <;> rfl
    have hlength : (work :: queue).length + fuel + 1 = (queue.length + fuel + 1) + 1 := by
      rw [List.length_cons, Nat.add_right_comm queue.length 1 fuel]
    refine ⟨steps', ?_⟩
    rw [hlength, runWaiting_succ, bind_of_ok _ (dequeue_cons hl), ← hfirst, ← hrest]
    exact bind_of_ok _ hrefused

/-- At the limit a level is closed without another turn. -/
theorem rest_refused (hlimit : m.limit = some limit) (hl : m.levels = ⟨queue, steps⟩ :: levels)
    (hsteps : limit ≤ steps) (p : Progress) {fuel' : Nat} (hfuel : 0 < fuel)
    (hfuel' : queue.length < fuel') :
  (p.rest call fuel fuel' >>= fun r => Run.closeLevel >>= fun _ => ofExcept r) m =
    ofExcept (p.outcome limit queue) { m with levels := levels }
  := by
  obtain ⟨fuel, rfl⟩ := Nat.exists_eq_add_of_lt hfuel
  let refused : Machine := { m with levels := ⟨queue, steps + 1⟩ :: levels }
  have hforce : ∀ resume, (force call (0 + fuel + 1) (.thunk 0 resume)).attempt m =
      .ok (.error (tooManySteps limit)) refused := fun resume =>
    attempt_bind_of_raised (fun _ => call resume [] >>= force call (0 + fuel))
      (step_refused hlimit hl hsteps)
  cases p with
  | unwinding resume =>
    obtain ⟨steps', hwaiting⟩ := runWaiting_refused call (m := refused) hlimit rfl
      (Nat.le_succ_of_le hsteps) none hfuel'
    rw [rest, bind_assoc, bind_of_ok _ (hforce resume), bind_assoc, bind_of_ok _ hwaiting]
    rfl
  | forcing result first resume =>
    obtain ⟨steps', hwaiting⟩ := runWaiting_refused call (m := refused) hlimit rfl
      (Nat.le_succ_of_le hsteps) (earlier first (.error (tooManySteps limit))) hfuel'
    rw [rest, bind_assoc, bind_of_ok _ (hforce resume), bind_assoc, bind_of_ok _ hwaiting]
    cases queue <;> cases result <;> cases first <;> rfl
  | draining result first =>
    obtain ⟨steps', hwaiting⟩ := runWaiting_refused call hlimit hl hsteps first hfuel'
    rw [rest, bind_assoc, bind_of_ok _ hwaiting]
    cases queue <;> cases result <;> cases first <;> rfl

end Progress

/-! ### All turns -/

/-- A way to call functions leaves the steps of the innermost level as they are. -/
structure Call.Spares (limit : Nat) (call : Call) : Prop where
  function : ∀ f vs, (call f vs).Spares limit
  work : ∀ work, (perform call work).Spares limit

namespace Progress

/-- What leaves the steps of the innermost level as they are does so when it is run to the end. -/
theorem attempt_level {act : Run α} (hact : act.Spares limit) {r : Ended α}
    (h : act.attempt m = .ok r m₁) (hlimit : m.limit = some limit)
    (hl : m.levels = ⟨queue, steps⟩ :: levels) :
  m₁.limit = some limit ∧ ∃ queue', m₁.levels = ⟨queue', steps⟩ :: levels
  := by
  have hgives : act.attempt.Gives m (.ok r) m₁ := h
  obtain ⟨_, _, hends⟩ := gives_attempt_iff.1 hgives
  exact hact _ _ _ _ _ _ hends hlimit hl

/-- A turn takes one step. -/
theorem turn_level (hcall : call.Spares limit) (hlimit : m.limit = some limit)
    (hl : m.levels = ⟨queue, steps⟩ :: levels) {p : Progress} {next : Option Progress}
    (h : p.turn call m = .ok next m₁) :
  (next = none ∧ m₁ = m ∧ p.hasTurn queue = false) ∨
  (∃ p', next = some p') ∧ p.hasTurn queue = true ∧ m₁.limit = some limit ∧
    ∃ queue', m₁.levels = ⟨queue', steps + 1⟩ :: levels
  := by
  rw [← bind_pure (p.turn call)] at h
  have hattempt : ∀ {act : Run Value} {queue : List Work} {further : Ended Value → Progress},
      act.Spares limit →
      (act.attempt >>= fun r => pure (some (further r)))
        { m with levels := ⟨queue, steps + 1⟩ :: levels } = .ok next m₁ →
      (∃ p', next = some p') ∧ m₁.limit = some limit ∧
        ∃ queue', m₁.levels = ⟨queue', steps + 1⟩ :: levels := by
    intro act queue further hact h
    let counted : Machine := { m with levels := ⟨queue, steps + 1⟩ :: levels }
    have hgives : (act.attempt >>= fun r => pure (some (further r))).Gives counted (.ok next) m₁ :=
      h
    rcases gives_bind_iff.1 hgives with ⟨r, m₂, hr, hnext⟩ | ⟨_, hc, _⟩
    · cases hnext
      exact ⟨⟨_, rfl⟩, attempt_level (m := counted) hact hr hlimit rfl⟩
    · cases hc
  cases p with
  | unwinding resume =>
    rw [turn, tally_attempt hl] at h
    obtain ⟨hnext, hrest⟩ := hattempt (hcall.function resume []) h
    exact .inr ⟨hnext, rfl, hrest⟩
  | forcing result first resume =>
    rw [turn, tally_attempt hl] at h
    obtain ⟨hnext, hrest⟩ := hattempt (hcall.function resume []) h
    exact .inr ⟨hnext, rfl, hrest⟩
  | draining result first =>
    cases queue with
    | nil =>
      rw [bind_of_ok _ (turn_draining_nil hl result first)] at h
      cases h
      exact .inl ⟨rfl, rfl, rfl⟩
    | cons work queue =>
      rw [turn_draining_cons hl] at h
      obtain ⟨hnext, hrest⟩ := hattempt (hcall.work work) h
      exact .inr ⟨hnext, rfl, hrest⟩

/-- Of at most `turns` turns each takes one step, and when there is one more to take, `turns` of
them have been taken. -/
theorem advance_level (hcall : call.Spares limit) {turns : Nat} {p p' : Progress}
    (h : p.advance call turns m = .ok p' m₁) (hlimit : m.limit = some limit)
    (hl : m.levels = ⟨queue, steps⟩ :: levels) :
  m₁.limit = some limit ∧ ∃ queue' steps', m₁.levels = ⟨queue', steps'⟩ :: levels ∧
    steps' ≤ steps + turns ∧ (p'.hasTurn queue' = true → steps' = steps + turns)
  := by
  induction turns generalizing p m queue steps with
  | zero =>
    cases h
    exact ⟨hlimit, queue, steps, hl, Nat.le_refl _, fun _ => rfl⟩
  | succ turns ih =>
    have hgives : (p.advance call (turns + 1)).Gives m (.ok p') m₁ := h
    rcases gives_bind_iff.1 hgives with ⟨next, m₂, hturn, hrest⟩ | ⟨_, hc, _⟩
    · rcases turn_level hcall hlimit hl hturn with
        ⟨rfl, rfl, hnone⟩ | ⟨⟨p₁, rfl⟩, -, hlimit₂, queue₂, hl₂⟩
      · cases hrest
        refine ⟨hlimit, queue, steps, hl, Nat.le_add_right _ _, fun hmore => ?_⟩
        rw [hnone] at hmore
        cases hmore
      · obtain ⟨hlimit₁, queue', steps', hl₁, hle, heq⟩ := ih hrest hlimit₂ hl₂
        have hsum : steps + 1 + turns = steps + (turns + 1) := by omega
        rw [hsum] at hle heq
        exact ⟨hlimit₁, queue', steps', hl₁, hle, heq⟩
    · cases hc

/-- A level is closed that takes no turn any more. -/
theorem close_of_levels (hl : m.levels = ⟨queue, steps⟩ :: levels) (p : Progress) :
  close limit p m = ofExcept (p.outcome limit queue) { m with levels := levels }
  := by
  unfold close
  rw [hl]
  rfl

/-- When there is no turn to take, no work waits. -/
theorem queue_of_hasTurn {p : Progress} (h : p.hasTurn queue = false) :
  queue = []
  := by
  cases p with
  | unwinding resume => cases h
  | forcing result first resume => cases h
  | draining result first =>
    cases queue with
    | nil => rfl
    | cons work queue => cases h

/-- A level that has taken some steps does the rest by taking its turns up to the limit, and being
closed. -/
theorem rest_advance (hcall : call.Spares limit) (turns : Nat) (p : Progress)
    (hlimit : m.limit = some limit) (hl : m.levels = ⟨queue, steps⟩ :: levels)
    (hsteps : steps + turns = limit) :
  ∃ enough, ∀ fuel fuel', enough ≤ fuel → enough ≤ fuel' →
    (p.rest call fuel fuel' >>= fun r => Run.closeLevel >>= fun _ => ofExcept r) m =
      (p.advance call turns >>= close limit) m
  := by
  induction turns generalizing p m queue steps with
  | zero =>
    refine ⟨queue.length + 1, fun fuel fuel' hfuel hfuel' => ?_⟩
    rw [rest_refused hlimit hl (Nat.le_of_eq hsteps.symm) p (by omega) hfuel']
    exact (close_of_levels hl p).symm
  | succ turns ih =>
    have hless : steps < limit := by omega
    -- What the turn comes to does not depend on the fuel of the loops.
    cases hturn : p.turn call m with
    | error stop m₂ =>
      refine ⟨2, fun fuel fuel' hfuel hfuel' => ?_⟩
      obtain ⟨f, f', -, -, hrest⟩ := rest_turn hlimit hl hless p Nat.one_pos hfuel hfuel'
      rw [bind_apply, hrest, bind_of_error _ hturn, bind_apply, advance, bind_of_error _ hturn]
    | ok next m₂ =>
      rcases turn_level hcall hlimit hl hturn with
        ⟨rfl, rfl, hnone⟩ | ⟨⟨p₁, rfl⟩, -, hlimit₂, queue₂, hl₂⟩
      · refine ⟨2, fun fuel fuel' hfuel hfuel' => ?_⟩
        obtain ⟨f, f', -, -, hrest⟩ := rest_turn hlimit hl hless p Nat.one_pos hfuel hfuel'
        rw [bind_apply, hrest, bind_of_ok _ hturn, bind_apply, advance, bind_of_ok _ hturn]
        have hqueue := queue_of_hasTurn hnone
        rw [hqueue] at hl
        change ofExcept (p.outcome limit []) { m₂ with levels := m₂.levels.tail } =
          close limit p m₂
        rw [close_of_levels hl, hl]
        rfl
      · obtain ⟨n, hn⟩ := ih p₁ hlimit₂ hl₂ (by omega)
        refine ⟨n + 2, fun fuel fuel' hfuel hfuel' => ?_⟩
        obtain ⟨f, f', hf, hf', hrest⟩ := rest_turn hlimit hl hless p (Nat.succ_pos n) hfuel hfuel'
        have hfurther := hn f f' (by omega) (by omega)
        rw [bind_apply, bind_apply] at hfurther
        rw [bind_apply, hrest, bind_of_ok _ hturn, bind_apply, advance, bind_of_ok _ hturn]
        exact hfurther

end Progress

/-- With enough fuel for its loops, a level comes to what it comes to by taking its turns up to the
limit, and being closed. -/
theorem bounce_turns {start : Run Value} (hcall : call.Spares limit) (hstart : start.Spares limit)
    (hlimit : m.limit = some limit) :
  ∃ enough, ∀ fuel, enough ≤ fuel →
    bounce call fuel start m = (afterTurns limit call start >>= Progress.close limit) m
  := by
  let opened : Machine := { m with levels := ⟨[], 0⟩ :: m.levels }
  have hloops : ∀ fuel, 0 < fuel → bounce call fuel start m =
      (start.attempt >>= fun r => (Progress.begun r).rest call fuel fuel >>= fun r =>
        Run.closeLevel >>= fun _ => ofExcept r) opened := by
    intro fuel hfuel
    have hlevel : inLevel call fuel start =
        start.attempt >>= fun r => (Progress.begun r).rest call fuel fuel := by
      rw [inLevel, attempt_bind, bind_assoc]
      simp only [Progress.begun_rest hfuel]
    rw [bounce_eq, hlevel, bind_assoc]
  have hturns : (afterTurns limit call start >>= Progress.close limit) m =
      (start.attempt >>= fun r => (Progress.begun r).advance call limit >>= Progress.close limit)
        opened := by
    have hopen : Run.openLevel m = .ok () opened := rfl
    rw [afterTurns, bind_assoc, bind_of_ok _ hopen, bind_assoc]
  cases hbegun : start.attempt opened with
  | error stop m₁ =>
    refine ⟨1, fun fuel hfuel => ?_⟩
    rw [hloops fuel hfuel, hturns, bind_of_error _ hbegun, bind_of_error _ hbegun]
  | ok r m₁ =>
    obtain ⟨hlimit₁, queue, hl₁⟩ :=
      Progress.attempt_level (m := opened) hstart hbegun hlimit rfl
    obtain ⟨n, hn⟩ := Progress.rest_advance hcall limit (.begun r) hlimit₁ hl₁ (Nat.zero_add limit)
    refine ⟨n + 1, fun fuel hfuel => ?_⟩
    rw [hloops fuel (Nat.lt_of_lt_of_le (Nat.succ_pos n) hfuel), hturns, bind_of_ok _ hbegun,
      bind_of_ok _ hbegun]
    exact hn fuel fuel (Nat.le_of_succ_le hfuel) (Nat.le_of_succ_le hfuel)

/-- After at most `turns` turns, the level has taken at most `turns` steps, and when there is one
more turn to take, it has taken `turns` of them. -/
theorem afterTurns_level {start : Run Value} (hcall : call.Spares limit)
    (hstart : start.Spares limit) {turns : Nat} {p : Progress} (hlimit : m.limit = some limit)
    (h : afterTurns turns call start m = .ok p m₁) :
  ∃ queue steps, m₁.levels = ⟨queue, steps⟩ :: m.levels ∧ steps ≤ turns ∧
    (p.hasTurn queue = true → steps = turns)
  := by
  let opened : Machine := { m with levels := ⟨[], 0⟩ :: m.levels }
  have hgives : (start.attempt >>= fun r => (Progress.begun r).advance call turns).Gives opened
      (.ok p) m₁ := h
  rcases gives_bind_iff.1 hgives with ⟨r, m₂, hbegun, hrest⟩ | ⟨_, hc, _⟩
  · obtain ⟨hlimit₂, queue₂, hl₂⟩ :=
      Progress.attempt_level (m := opened) hstart hbegun hlimit rfl
    obtain ⟨-, queue, steps, hl, hle, heq⟩ :=
      Progress.advance_level hcall hrest hlimit₂ hl₂
    rw [Nat.zero_add] at hle heq
    exact ⟨queue, steps, hl, hle, heq⟩
  · cases hc

end Trampoline

end Skein
