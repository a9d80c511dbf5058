import Skein.Proofs.Turns

/-!
# The limit of steps

A level that may take `limit` steps takes its turns as if there was no limit, but at most `limit` of
them.  When it has no more to take, it comes to what it would come to without a limit.  When it has,
it comes to the condition that was raised first in it, or to the one about the limit, without
another turn; and the levels around it are as they were.

So the limit changes nothing of a run in which without it every level takes at most `limit` turns.
Whether that is so a meter tells, which stops the whole run when a level is about to take one more.
-/

namespace Skein

open Run Trampoline

variable {α β : Type} {limit least around fuel : Nat} {m m₁ : Machine} {φ : Recount}

/-! ### What does not depend on the counts -/

/-- A machine without the limit of steps and without the steps that its levels have taken. -/
def Machine.uncounted (m : Machine) : Machine :=
  { m with limit := none, levels := m.levels.map fun level => { level with steps := 0 } }

/-- What a computation comes to, except for the limit and the counts of steps. -/
def Run.uncounted : EStateM.Result Stop Machine α → EStateM.Result Stop Machine α
  | .ok a m => .ok a m.uncounted
  | .error stop m => .error stop m.uncounted

/-- The counts make no difference to a machine without them. -/
theorem Recount.uncounted_machine (m : Machine) :
  (φ.machine m).uncounted = m.uncounted
  := by
  have hlevels : ∀ levels : List Level,
      (φ.levels levels).map (fun level => { level with steps := 0 }) =
        levels.map fun level => { level with steps := 0 } := by
    intro levels
    induction levels with
    | nil => rfl
    | cons level levels ih =>
      rw [Recount.levels, List.map_cons, List.map_cons, ih]
  change { m with limit := none, levels := (φ.levels m.levels).map _ } = _
  rw [hlevels]
  rfl

/-- Ends that mirror each other differ in the counts only, when no meter has stopped the first
computation. -/
theorem Recount.Mirrors.uncounted {r r' : EStateM.Result Stop Machine α} (h : φ.Mirrors m r r')
    (hr : ∀ m₁, r ≠ .error Run.overrun m₁) :
  Run.uncounted r' = Run.uncounted r
  := by
  cases h with
  | ok a hl => exact congrArg (EStateM.Result.ok a) (φ.uncounted_machine _)
  | raised c hl => exact congrArg (EStateM.Result.error _) (φ.uncounted_machine _)
  | fault message m₁ => exact congrArg (EStateM.Result.error _) (φ.uncounted_machine _)
  | exhausted m₁ => exact congrArg (EStateM.Result.error _) (φ.uncounted_machine _)
  | overrun hmetered m₁ => exact absurd rfl (hr m₁)

/-! ### Meters -/

/-- The recount that gives a machine a limit. -/
def Recount.limiting (limit : Nat) : Recount where
  limit := some limit
  steps _ s := s
  metered := True

/-- The recount that takes the limit from a machine, so that the levels inside of `least` others
count no steps. -/
def Recount.freeing (least : Nat) : Recount where
  limit := none
  steps around s := if around < least then s else 0
  metered := True

/-- A machine with a limit. -/
theorem Recount.limiting_machine (limit : Nat) (m : Machine) :
  (limiting limit).machine m = { m with limit := some limit }
  := by
  rw [machine, levels_of_steps _ fun _ _ _ => rfl]
  rfl

/-- A machine without a limit. -/
theorem Recount.freeing_machine (hl : m.levels.length ≤ least) :
  (freeing least).machine m = { m with limit := none }
  := by
  rw [machine, levels_of_steps _ fun around h _ => if_pos (Nat.lt_of_lt_of_le h hl)]
  rfl

/-- While steps are not limited, none is counted. -/
theorem Run.step_of_unlimited (hlimit : m.limit = none) :
  Run.step m = .ok () m
  := by
  obtain ⟨_, _, _, _, _⟩ := m
  cases hlimit
  rfl

/-- A meter suits the machine with a limit. -/
theorem Recount.limiting_suits (limit least : Nat) :
  (limiting limit).Suits least (meter limit)
  := suits_limit _ rfl (fun _ _ _ => rfl) (.inr ⟨trivial, rfl⟩)

/-- A meter suits the machine without a limit. -/
theorem Recount.freeing_suits (limit least : Nat) :
  (freeing least).Suits least (meter limit)
  where
  opened around h := if_neg (Nat.not_lt.2 h)
  counted := by
    intro m hm
    rw [step_of_unlimited rfl]
    cases hl : m.levels with
    | nil =>
      rw [hl] at hm
      exact absurd hm (Nat.not_succ_le_zero least)
    | cons level levels =>
      obtain ⟨queue, steps⟩ := level
      let counted : Machine := { m with levels := ⟨queue, steps + 1⟩ :: levels }
      have hlength : counted.levels.length = m.levels.length := by
        rw [hl]
        rfl
      rw [hl] at hm
      have hzero : ∀ s, (freeing least).steps levels.length s = 0 := fun s =>
        if_neg (Nat.not_lt.2 (Nat.le_of_succ_le_succ hm))
      have hsame : (freeing least).machine m = (freeing least).machine counted := by
        rw [machine, machine, hl]
        change { m with limit := none, levels := _ :: _ } =
          { m with limit := none, levels := _ :: _ }
        rw [hzero, hzero]
      rw [meter, countTo_cons _ hl]
      by_cases hmore : steps < limit
      · rw [if_pos hmore, hsame]
        exact .ok () hlength
      · rw [if_neg hmore]
        exact .overrun trivial _ _

/-! ### Turns of which the steps are metered -/

namespace Trampoline

/-- The step of a turn, when the recount keeps the counts of the level. -/
theorem tally_mirrors (hcount : ∀ s, φ.steps around (s + 1) = φ.steps around s + 1)
    (hm : m.levels.length = around + 1) :
  φ.Mirrors m (Run.tally m) (Run.tally (φ.machine m))
  := by
  cases hl : m.levels with
  | nil =>
    rw [hl] at hm
    cases hm
  | cons level levels =>
    obtain ⟨queue, steps⟩ := level
    rw [hl] at hm
    obtain rfl : levels.length = around := Nat.succ.inj hm
    let counted : Machine := { m with levels := ⟨queue, steps + 1⟩ :: levels }
    have hcounted : { φ.machine m with
        levels := ⟨queue, φ.steps levels.length steps + 1⟩ :: φ.levels levels } =
          φ.machine counted := by
      rw [← hcount]
      rfl
    rw [tally_cons hl, tally_cons (φ.machine_levels_cons hl), hcounted]
    refine .ok () ?_
    rw [hl]
    rfl

section turns

variable {call call' : Call} (hcall : call.Follows φ (around + 1) call')
  (hcount : ∀ s, φ.steps around (s + 1) = φ.steps around s + 1)
include hcall hcount

/-- A turn of a level inside of `around` others. -/
theorem Progress.turn_mirrors (hm : m.levels.length = around + 1) (p : Progress) :
  φ.Mirrors m (p.turn call m) (p.turn call' (φ.machine m))
  := by
  have hturn : ∀ {act act' : Run Value} (next : Ended Value → Progress) {m : Machine},
      act.Follows φ (around + 1) act' → m.levels.length = around + 1 →
      φ.Mirrors m
        ((do
          Run.tally
          return some (next (← act.attempt)) : Run (Option Progress)) m)
        ((do
          Run.tally
          return some (next (← act'.attempt)) : Run (Option Progress)) (φ.machine m)) := by
    intro act act' next m hact hm
    refine (tally_mirrors hcount hm).bind fun _ m₁ hl => ?_
    exact (hact.attempt.bind fun _ => (Blind.pure _).follows) m₁
      (Nat.le_of_eq (hl.trans hm).symm)
  cases p with
  | unwinding resume => exact hturn _ (hcall resume []) hm
  | forcing result first resume => exact hturn _ (hcall resume []) hm
  | draining result first =>
    refine (Blind.dequeue φ m (Nat.zero_le _)).bind fun next m₁ hl => ?_
    cases next with
    | none => exact Blind.pure _ φ m₁ (Nat.zero_le _)
    | some work => exact hturn _ (perform_follows hcall work) (hl.trans hm)

/-- Turns of a level inside of `around` others. -/
theorem Progress.advance_mirrors (hm : m.levels.length = around + 1) (turns : Nat) (p : Progress) :
  φ.Mirrors m (p.advance call turns m) (p.advance call' turns (φ.machine m))
  := by
  induction turns generalizing p m with
  | zero => exact .ok p rfl
  | succ turns ih =>
    refine (p.turn_mirrors hcall hcount hm).bind fun next m₁ hl => ?_
    cases next with
    | none => exact .ok p rfl
    | some p => exact ih (hl.trans hm) p

end turns

/-! ### Levels that are opened -/

namespace Launch

variable (l : Launch)

/-- A computation in a level of its own. -/
def inLevel (c fuel : Nat) : Run Value :=
  bounce (Value.call c) fuel (l.run (Value.call c) c)

/-- A computation in a level of its own that takes at most `turns` turns. -/
def inTurns (turns c : Nat) : Run Progress :=
  afterTurns turns (Value.call c) (l.run (Value.call c) c)

/-- A computation in a level of its own; the run stops when any level needs more than `limit`
steps. -/
def meteredInLevel (limit c fuel : Nat) : Run Value :=
  bounceBy (meter limit) (Value.callBy (meter limit) c) fuel
    (l.runBy (meter limit) (Value.callBy (meter limit) c) c)

/-- A computation in a level of its own that takes at most `turns` turns; the run stops when any
level inside of it needs more than `limit` steps. -/
def meteredInTurns (limit turns c : Nat) : Run Progress :=
  afterTurns turns (Value.callBy (meter limit) c)
    (l.runBy (meter limit) (Value.callBy (meter limit) c) c)

/-- A level comes to the same on a machine that a meter suits. -/
theorem inLevel_follows (hφ : φ.Suits least (meter limit)) (c fuel : Nat) :
  (l.meteredInLevel limit c fuel).Follows φ least (l.inLevel c fuel)
  := bounce_follows hφ (Value.call_follows hφ) (l.run_follows hφ (Value.call_follows hφ))

/-- The turns of a level come to the same on a machine that a meter suits and on which the level
counts them. -/
theorem inTurns_mirrors (hφ : φ.Suits (m.levels.length + 1) (meter limit))
    (hzero : φ.steps m.levels.length 0 = 0)
    (hcount : ∀ s, φ.steps m.levels.length (s + 1) = φ.steps m.levels.length s + 1)
    (turns c : Nat) :
  φ.Mirrors { m with levels := ⟨[], 0⟩ :: m.levels } (l.meteredInTurns limit turns c m)
    (l.inTurns turns c (φ.machine m))
  := by
  let opened : Machine := { m with levels := ⟨[], 0⟩ :: m.levels }
  have hcall : Call.Follows φ (m.levels.length + 1) (Value.callBy (meter limit) c) (Value.call c) :=
    Value.call_follows hφ
  have hstart : Run.Follows φ (m.levels.length + 1)
      (l.runBy (meter limit) (Value.callBy (meter limit) c) c) (l.run (Value.call c) c) :=
    l.run_follows hφ hcall
  have hturns := (hstart.attempt opened (Nat.le_refl _)).bind fun r m₁ hl =>
    Progress.advance_mirrors hcall hcount hl turns (.begun r)
  rw [φ.machine_opened hzero] at hturns
  exact hturns

/-! ### The limit -/

/-- A level that is opened for a computation on a machine with a limit of steps. -/
structure KeepsTo (limit : Nat) (m : Machine) : Prop where
  /-- A run that does not come to an end stops in one of the turns that the limit allows. -/
  stopped : ∀ c stop m₁, l.inTurns limit c { m with limit := some limit } = .error stop m₁ →
    ∃ enough, ∀ fuel, enough ≤ fuel →
      l.inLevel c fuel { m with limit := some limit } = .error stop m₁
  /-- The level takes at most as many turns as the limit allows, and less only if there is no more
  to take. -/
  taken : ∀ c p m₁, l.inTurns limit c { m with limit := some limit } = .ok p m₁ →
    ∃ queue turns, m₁.levels = ⟨queue, turns⟩ :: m.levels ∧ turns ≤ limit ∧
      (p.hasTurn queue = true → turns = limit)
  /-- When there is no more turn to take, the level comes to what it comes to without a limit of its
  own. -/
  finished : ∀ c result first m₁ turns,
    l.inTurns limit c { m with limit := some limit } = .ok (.draining result first) m₁ →
    m₁.levels = ⟨[], turns⟩ :: m.levels →
      Eventually fun c f => (l.inLevel c f).Gives { m with limit := some limit }
        (settled result first) { m₁ with levels := m.levels }
  /-- When there is one more turn to take, the level raises the condition that was raised first in
  it, or the one about the limit, and nothing else happens: the machine is the one after the turns
  that were taken, with the levels as they were found. -/
  refused : ∀ c p m₁ queue turns,
    l.inTurns limit c { m with limit := some limit } = .ok p m₁ →
    m₁.levels = ⟨queue, turns⟩ :: m.levels → p.hasTurn queue = true →
      Eventually fun c f => (l.inLevel c f).Gives { m with limit := some limit }
        (.error (p.raised?.getD (tooManySteps limit))) { m₁ with levels := m.levels }
  /-- When no level that is opened in these turns needs more steps than the limit without it, they
  are the turns that the level takes without the limit. -/
  needed : ∀ c,
    (∀ m₁, l.meteredInTurns limit limit c { m with limit := none } ≠ .error overrun m₁) →
      uncounted (l.inTurns limit c { m with limit := some limit }) =
        uncounted (l.inTurns limit c { m with limit := none })
  /-- A run in which no level needs more steps than the limit without it is the same with it. -/
  spared : ∀ c fuel,
    (∀ m₁, l.meteredInLevel limit c fuel { m with limit := none } ≠ .error overrun m₁) →
      uncounted (l.inLevel c fuel { m with limit := some limit }) =
        uncounted (l.inLevel c fuel { m with limit := none })

/-- What a level comes to, it comes to when there is more fuel. -/
theorem inLevel_eventually {c fuel : Nat} {r : Ended Value}
    (h : (l.inLevel c fuel).Gives m r m₁) :
  Eventually fun c f => (l.inLevel c f).Gives m r m₁
  := by
  refine ⟨max c fuel, fun c' f' hc hf => ?_⟩
  have hle : c ≤ c' := Nat.le_trans (Nat.le_max_left c fuel) hc
  exact bounce_below (Value.call_below hle) (Nat.le_trans (Nat.le_max_right c fuel) hf)
    (l.run_below (Value.call_below hle) hle) _ _ _ h

/-- A level whose turns have been taken is closed, and comes to its outcome. -/
theorem inLevel_of_inTurns {c turns : Nat} {p : Progress} {queue : List Work}
    (hlimit : m.limit = some limit) (h : l.inTurns limit c m = .ok p m₁)
    (hl : m₁.levels = ⟨queue, turns⟩ :: m.levels) :
  Eventually fun c f => (l.inLevel c f).Gives m (p.outcome limit queue)
    { m₁ with levels := m.levels }
  := by
  have hcall : Call.Spares limit (Value.call c) := ⟨Value.call_spares, perform_spares⟩
  obtain ⟨n, hn⟩ := bounce_turns hcall l.run_spares hlimit
  have hclosed : (afterTurns limit (Value.call c) (l.run (Value.call c) c) >>=
      Progress.close limit) m = ofExcept (p.outcome limit queue) { m₁ with levels := m.levels } :=
    (bind_of_ok _ h).trans (Progress.close_of_levels hl p)
  have hends : (l.inLevel c n).Gives m (p.outcome limit queue) { m₁ with levels := m.levels } := by
    have hgives := gives_ofExcept (p.outcome limit queue) { m₁ with levels := m.levels }
    unfold Run.Gives at hgives ⊢
    rw [inLevel, hn n (Nat.le_refl n), hclosed, hgives]
  exact l.inLevel_eventually hends

end Launch

/-- For whatever computation a level is opened, the limit of steps is exact. -/
theorem level_keeps_to_limit (l : Launch) (limit : Nat) (m : Machine) :
  l.KeepsTo limit m
  := by
  let limited : Machine := { m with limit := some limit }
  let free : Machine := { m with limit := none }
  have hlimiting : (Recount.limiting limit).machine free = limited :=
    Recount.limiting_machine limit free
  constructor
  case stopped =>
    intro c stop m₁ h
    have hcall : Call.Spares limit (Value.call c) := ⟨Value.call_spares, perform_spares⟩
    obtain ⟨n, hn⟩ := bounce_turns (m := limited) hcall l.run_spares rfl
    exact ⟨n, fun fuel hfuel => (hn fuel hfuel).trans (bind_of_error _ h)⟩
  case taken =>
    intro c p m₁ h
    exact afterTurns_level (m := limited) ⟨Value.call_spares, perform_spares⟩ l.run_spares rfl h
  case finished =>
    intro c result first m₁ turns h hl
    exact l.inLevel_of_inTurns (m := limited) rfl h hl
  case refused =>
    intro c p m₁ queue turns h hl hmore
    have houtcome : p.outcome limit queue = .error (p.raised?.getD (tooManySteps limit)) := by
      cases p with
      | unwinding resume => rfl
      | forcing result first resume => rfl
      | draining result first =>
        cases queue with
        | nil => cases hmore
        | cons work queue => rfl
    rw [← houtcome]
    exact l.inLevel_of_inTurns (m := limited) rfl h hl
  case needed =>
    intro c hmetered
    have hlimited := l.inTurns_mirrors (m := free)
      (Recount.limiting_suits limit _) rfl (fun _ => rfl) limit c
    have hinside : ∀ s, (Recount.freeing (free.levels.length + 1)).steps free.levels.length s = s :=
      fun s => if_pos (Nat.lt_succ_self _)
    have hfree := l.inTurns_mirrors (m := free)
      (Recount.freeing_suits limit _) (hinside 0) (fun s => by rw [hinside, hinside]) limit c
    rw [hlimiting] at hlimited
    rw [Recount.freeing_machine (Nat.le_succ _)] at hfree
    exact (hlimited.uncounted hmetered).trans (hfree.uncounted hmetered).symm
  case spared =>
    intro c fuel hmetered
    have hlimited := l.inLevel_follows (Recount.limiting_suits limit 0) c fuel free (Nat.zero_le _)
    have hfree := l.inLevel_follows (Recount.freeing_suits limit free.levels.length) c fuel free
      (Nat.le_refl _)
    rw [hlimiting] at hlimited
    rw [Recount.freeing_machine (Nat.le_refl _)] at hfree
    exact (hlimited.uncounted hmetered).trans (hfree.uncounted hmetered).symm

/-- A thunk that takes one step. -/
def oneStep : Value := .thunk 0 (.native (.instrument 1 (.countdown 0)))

/-- Where no step is allowed it is refused, and where one is allowed it is forced as without a
limit. -/
theorem oneStep_keeps_to_limit :
  (∃ m₁, Eventually fun c f => ((Launch.value oneStep).inLevel c f).Gives
    { Machine.empty with limit := some 0 } (.error (tooManySteps 0)) m₁) ∧
  (∃ m₁, Eventually fun c f => ((Launch.value oneStep).inLevel c f).Gives
    { Machine.empty with limit := some 1 } (.ok (.keyword "liftoff")) m₁) ∧
  uncounted ((Launch.value oneStep).inLevel 1 2 { Machine.empty with limit := some 1 }) =
    uncounted ((Launch.value oneStep).inLevel 1 2 { Machine.empty with limit := none })
  := by
  have hnone : (Launch.value oneStep).inTurns 0 1 { Machine.empty with limit := some 0 } =
      .ok (.unwinding (.native (.instrument 1 (.countdown 0))))
        { Machine.empty with levels := [⟨[], 0⟩], limit := some 0 } := rfl
  have hone : (Launch.value oneStep).inTurns 1 1 { Machine.empty with limit := some 1 } =
      .ok (.draining (.ok (.keyword "liftoff")) none)
        { Machine.empty with levels := [⟨[], 1⟩], limit := some 1 } := rfl
  have hmetered : (Launch.value oneStep).meteredInLevel 1 1 2 { Machine.empty with limit := none } =
      .ok (.keyword "liftoff") Machine.empty := rfl
  have hrefused := (level_keeps_to_limit _ 0 .empty).refused 1 _ _ _ _ hnone rfl rfl
  have hfinished := (level_keeps_to_limit _ 1 .empty).finished 1 _ _ _ _ hone rfl
  have hspared := (level_keeps_to_limit (.value oneStep) 1 .empty).spared 1 2
  refine ⟨⟨_, hrefused⟩, ⟨_, hfinished⟩, hspared fun m₁ h => ?_⟩
  rw [hmetered] at h
  cases h

end Trampoline

end Skein
