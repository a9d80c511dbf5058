import Skein.Proofs.Metered.Evaluation
import Skein.Proofs.Regime.Everything

/-!
# The steps of a level

A level of the trampoline is opened for a computation.  While steps are limited, whatever runs
inside of the level, and inside of levels that are opened in it, leaves the steps that the level
has taken as they are: a level takes its steps itself.
-/

namespace Skein

open Run Trampoline

variable {limit least fuel : Nat} {m m' : Machine}

/-! ### What levels are opened for -/

/-- What a level is opened for. -/
inductive Trampoline.Launch where
  /-- A tree is evaluated. -/
  | tree (e : Expr) (env : Env)
  /-- A value is unwound. -/
  | value (v : Value)
  /-- A function is called. -/
  | call (f : Value) (args : List Value)
  /-- Work is done that found no level to wait in. -/
  | work (work : Work)
  /-- A coroutine is started as an execution, with its continuations. -/
  | coroutine (own : Nat) (f success failure : Value)
  /-- Somebody who observes the program does a piece of work. -/
  | script (work : Script)

namespace Trampoline.Launch

/-- The computation that a level is opened for. -/
def run (call : Call) (fuel : Nat) : Launch → Run Value
  | .tree e env => e.eval call fuel env
  | .value v => return v
  | .call f args => call f args
  | .work w => perform call w
  | .coroutine own f success failure => startWith call own f success failure
  | .script s => Instrument.runScript call fuel s

/-- The computation that a level is opened for, with steps counted in the levels that it opens. -/
def runBy (count : Run Unit) (call : Call) (fuel : Nat) : Launch → Run Value
  | .tree e env => e.eval call fuel env
  | .value v => return v
  | .call f args => call f args
  | .work w => perform call w
  | .coroutine own f success failure => startWith call own f success failure
  | .script s => Instrument.runScriptBy count call fuel s

/-- On a machine with other counts, the computation that a level is opened for comes to the same. -/
theorem run_follows {φ : Recount} {count : Run Unit} {call call' : Call}
    (hφ : φ.Suits least count) (hcall : call.Follows φ least call') (l : Launch) :
  (l.runBy count call fuel).Follows φ least (l.run call' fuel)
  := by
  cases l with
  | tree e env => exact e.eval_follows hcall env
  | value v => exact (Blind.pure v).follows
  | call f args => exact hcall f args
  | work w => exact perform_follows hcall w
  | coroutine own f success failure =>
    exact startWith_follows hcall own f success failure
  | script s => exact Instrument.runScript_follows hφ hcall s

/-- What the computation that a level is opened for ends with, it ends with when there is more
fuel. -/
theorem run_below {call call' : Call} {n n' : Nat} (h : Call.Below call call') (hn : n ≤ n')
    (l : Launch) :
  Below (l.run call n) (l.run call' n')
  := by
  cases l with
  | tree e env => exact e.eval_below h hn env
  | value v => exact .refl _
  | call f args => exact h f args
  | work w => exact perform_congr (C := below) h w
  | coroutine own f success failure =>
    apply Below.bind (.attempt (h f [success, failure]))
    rintro (d | v)
    · apply Below.bind (.refl _)
      intro state
      split
      · exact .refl _
      · exact h failure [.condition d]
    · exact .refl _
  | script s => exact Instrument.runScript_congr (C := below) h hn s

/-- The computation that a level is opened for keeps what every operation of the machine keeps. -/
theorem run_keeps {keeps : Machine → Machine → Prop} (h : (Regime.everything keeps).Keeping)
    (l : Launch) (c n : Nat) :
  (l.run (Value.call c) n).Keeps (.everything keeps) (Regime.everything keeps).value
  := by
  have hR := Regime.everything_lawful h
  have hcall := Regime.everything_call h c
  cases l with
  | tree e env =>
    exact Expr.eval_keeps hR hcall (Regime.everything_evaluable _) (Value.call_runsBuiltins c) n
      trivial fun _ _ => trivial
  | value v => exact Keeps.pure hR trivial
  | call f args => exact hcall f args trivial fun _ _ => trivial
  | work w => exact perform_keeps hR hcall (w.holds_everything _)
  | coroutine own f success failure => exact startWith_keeps hR hcall own trivial trivial trivial
  | script s => exact Instrument.runScript_keeps hR hcall trivial n s

/-- The computation that a level is opened for leaves a later machine. -/
theorem run_later (l : Launch) {c : Nat} (n : Nat) {r : Ended Value}
    (h : (l.run (Value.call c) n).Gives m r m') :
  m.Later m'
  := (l.run_keeps Machine.later_keeping c n).kept h

end Trampoline.Launch

/-! ### Counts of limited steps -/

/-- While steps are limited, a machine counts them to its limit. -/
theorem Run.step_of_limit (hlimit : m.limit = some limit) :
  Run.step m = countTo limit (.raised (tooManySteps limit)) m
  := by
  obtain ⟨globals, heap, context, levels, _⟩ := m
  cases hlimit
  rcases levels with _ | ⟨⟨queue, steps⟩, levels⟩
  · rfl
  unfold Run.step countTo
  dsimp only
  by_cases hsteps : steps < limit
  · rw [if_pos hsteps]
    change (if steps + 1 > limit then _ else _ : Run Unit) _ = _
    rw [if_neg (Nat.not_lt.2 hsteps)]
    rfl
  · rw [if_neg hsteps]
    change (if steps + 1 > limit then _ else _ : Run Unit) _ = _
    rw [if_pos (Nat.lt_succ_of_le (Nat.le_of_not_lt hsteps))]
    rfl

/-- On a machine without levels no step is counted. -/
theorem Run.countTo_nil (refusal : Stop) (hl : m.levels = []) :
  countTo limit refusal m = .ok () m
  := by
  unfold countTo
  rw [hl]

/-- A step of the innermost level is counted, or refused. -/
theorem Run.countTo_cons (refusal : Stop) {queue : List Work} {steps : Nat} {levels : List Level}
    (hl : m.levels = ⟨queue, steps⟩ :: levels) :
  countTo limit refusal m =
    if steps < limit then .ok () { m with levels := ⟨queue, steps + 1⟩ :: levels }
    else .error refusal { m with levels := ⟨queue, steps + 1⟩ :: levels }
  := by
  unfold countTo
  rw [hl]

/-- Where the counts of the levels inside of `least` others stay, steps that are counted to the
limit suit the machine. -/
theorem Recount.suits_limit {φ : Recount} (refusal : Stop) (hlimit : φ.limit = some limit)
    (hsteps : ∀ around, least ≤ around → ∀ steps, φ.steps around steps = steps)
    (hrefusal : refusal = .raised (tooManySteps limit) ∨ φ.metered ∧ refusal = overrun) :
  φ.Suits least (countTo limit refusal)
  where
  opened around h := hsteps around h 0
  counted := by
    intro m hm
    rw [step_of_limit (m := φ.machine m) hlimit]
    cases hl : m.levels with
    | nil =>
      rw [hl] at hm
      exact absurd hm (Nat.not_succ_le_zero least)
    | cons level levels =>
      obtain ⟨queue, steps⟩ := level
      rw [hl] at hm
      have hkept : ∀ s, φ.steps levels.length s = s := hsteps _ (Nat.le_of_succ_le_succ hm)
      have hmirrored : (φ.machine m).levels = ⟨queue, steps⟩ :: φ.levels levels := by
        rw [φ.machine_levels_cons hl]
        dsimp only
        rw [hkept]
      have hcounted : { φ.machine m with levels := ⟨queue, steps + 1⟩ :: φ.levels levels } =
          φ.machine { m with levels := ⟨queue, steps + 1⟩ :: levels } := by
        change _ = { m with
          limit := φ.limit, levels := ⟨queue, φ.steps levels.length _⟩ :: φ.levels levels }
        rw [hkept]
        rfl
      have hlength : (⟨queue, steps + 1⟩ :: levels).length = m.levels.length := by
        rw [hl]
        rfl
      rw [countTo_cons _ hl, countTo_cons _ hmirrored, hcounted]
      by_cases hmore : steps < limit
      · rw [if_pos hmore, if_pos hmore]
        exact .ok () hlength
      · rw [if_neg hmore, if_neg hmore]
        rcases hrefusal with rfl | ⟨hmetered, rfl⟩
        · exact .raised _ hlength
        · exact .overrun hmetered _ _

/-! ### Steps that stay -/

/-- Where steps are limited, a computation leaves the limit, the steps of the innermost level and
the levels around it as they are. -/
def Run.Spares {α : Type} (limit : Nat) (act : Run α) : Prop :=
  ∀ m r m' queue steps levels, act.Gives m r m' → m.limit = some limit →
    m.levels = ⟨queue, steps⟩ :: levels →
    m'.limit = some limit ∧ ∃ queue', m'.levels = ⟨queue', steps⟩ :: levels

/-- A recount under which a machine is the same whose level inside of `around` others has taken
`steps` steps. -/
def Recount.holding (limit around steps : Nat) : Recount where
  limit := some limit
  steps a s := if a = around then steps else s
  metered := False

/-- The machine is the same. -/
theorem Recount.holding_machine {queue : List Work} {steps : Nat} {levels : List Level}
    (hlimit : m.limit = some limit) (hl : m.levels = ⟨queue, steps⟩ :: levels) :
  (holding limit levels.length steps).machine m = m
  := by
  have hlevels : (holding limit levels.length steps).levels (⟨queue, steps⟩ :: levels) =
      ⟨queue, steps⟩ :: levels := by
    have houter : (holding limit levels.length steps).levels levels = levels :=
      levels_of_steps _ fun around h _ => if_neg (Nat.ne_of_lt h)
    rw [Recount.levels, houter]
    change ⟨queue, if levels.length = levels.length then _ else _⟩ :: levels = _
    rw [if_pos rfl]
  obtain ⟨_, _, _, _, _⟩ := m
  cases hlimit
  cases hl
  rw [Recount.machine, hlevels]
  rfl

/-- A computation that comes to the same with other counts leaves the steps of the innermost level
as they are. -/
theorem Run.Spares.of_follows {α : Type} {act ghost : Run α}
    (hghost : ∀ φ least, φ.Suits least (countTo limit (.raised (tooManySteps limit))) →
      ghost.Follows φ least act)
    (hlater : ∀ m r m', act.Gives m r m' → m.Later m') :
  act.Spares limit
  := by
  intro m r m' queue steps levels h hlimit hl
  let φ : Recount := .holding limit levels.length steps
  have hsuits : φ.Suits (levels.length + 1) (countTo limit (.raised (tooManySteps limit))) :=
    Recount.suits_limit _ rfl (fun around h s => if_neg (Nat.ne_of_gt h)) (.inl rfl)
  have hlength : levels.length + 1 ≤ m.levels.length := by
    rw [hl]
    exact Nat.le_refl _
  have hmirrors := hghost φ _ hsuits m hlength
  rw [Recount.holding_machine hlimit hl] at hmirrors
  have hend : ∃ m₁, m' = φ.machine m₁ ∧ m₁.levels.length = m.levels.length := by
    unfold Run.Gives at h
    rw [h] at hmirrors
    revert hmirrors
    generalize ghost m = ended
    intro hmirrors
    cases r with
    | ok a =>
      cases hmirrors with
      | ok _ hl => exact ⟨_, rfl, hl⟩
      | overrun hmetered => exact hmetered.elim
    | error d =>
      cases hmirrors with
      | raised _ hl => exact ⟨_, rfl, hl⟩
      | overrun hmetered => exact hmetered.elim
  obtain ⟨m₁, rfl, hl₁⟩ := hend
  refine ⟨rfl, ?_⟩
  obtain ⟨queue', steps', hl'⟩ := (hlater _ _ _ h).levels_eq hl
  have hsteps : steps' = steps := by
    cases hlevels : m₁.levels with
    | nil =>
      rw [hlevels, hl] at hl₁
      cases hl₁
    | cons level around =>
      rw [hlevels, hl] at hl₁
      have haround : around.length = levels.length := Nat.succ.inj hl₁
      have hinner := φ.machine_levels_cons hlevels
      rw [haround] at hinner
      have hheld : φ.steps levels.length level.steps = steps := if_pos rfl
      rw [hheld, hl'] at hinner
      exact congrArg Level.steps (List.cons.inj hinner).1
  rw [hsteps] at hl'
  exact ⟨queue', hl'⟩

section calling

variable {c : Nat}

/-- Calls leave the steps of the level. -/
theorem Value.call_spares (f : Value) (vs : List Value) :
  (Value.call c f vs).Spares limit
  := .of_follows (fun _ _ hφ => Value.call_follows hφ f vs)
    fun _ _ _ h => (Launch.call f vs).run_later 0 h

/-- Work leaves the steps of the level. -/
theorem Trampoline.perform_spares (work : Work) :
  (perform (Value.call c) work).Spares limit
  := .of_follows (fun _ _ hφ => perform_follows (Value.call_follows hφ) work)
    fun _ _ _ h => (Launch.work work).run_later 0 h

/-- What a level is opened for leaves the steps of the level. -/
theorem Trampoline.Launch.run_spares (l : Launch) :
  (l.run (Value.call c) fuel).Spares limit
  := .of_follows (fun _ _ hφ => l.run_follows hφ (Value.call_follows hφ))
    fun _ _ _ h => l.run_later fuel h

end calling

end Skein
