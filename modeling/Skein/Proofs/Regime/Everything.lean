import Skein.Proofs.Evaluation
import Skein.Proofs.Regime.Eval

/-!
# What every computation keeps

Where a program may hold every value, its computations still keep something: an execution
that is settled stays settled, and the levels of the trampoline around the innermost one are
left as they are.
-/

namespace Skein

open Run Trampoline

namespace Regime

/-- The regime in which everything is allowed. -/
def everything (keeps : Machine → Machine → Prop) : Regime where
  names _ := True
  value _ := True
  code _ := True
  body _ := True
  keeps
  nests := True
  frames := True

/-- The regime in which everything is allowed is lawful when what it keeps is. -/
theorem everything_lawful {keeps : Machine → Machine → Prop}
    (h : (everything keeps).Keeping) :
  (everything keeps).Lawful
  where
  toKeeping := h
  scalar _ := trivial
  list_iff := iff_of_true trivial fun _ _ => trivial
  vector_iff := iff_of_true trivial fun _ _ => trivial
  closure_iff := iff_of_true trivial ⟨trivial, fun _ _ => trivial⟩
  awaitContinuation_iff := iff_of_true trivial ⟨fun _ _ _ _ => trivial, trivial⟩
  awaitFailure_iff := iff_of_true trivial ⟨fun _ _ _ _ => trivial, trivial⟩
  settle_iff := iff_of_true trivial trivial
  inContext_iff := iff_of_true trivial ⟨fun _ _ _ _ => trivial, trivial⟩
  instrument _ _ _ := trivial
  script_iff := iff_of_true trivial trivial
  condition_iff := iff_of_true trivial trivial
  thunk_iff := iff_of_true trivial trivial
  atom _ := trivial
  execution _ := trivial
  run _ := trivial
  unwind _ := trivial
  builtin _ _ := trivial
  held _ := trivial
  var _ := trivial
  lambda _ := trivial

/-- In the regime in which everything is allowed every tree may be evaluated. -/
theorem everything_evaluable (keeps : Machine → Machine → Prop) :
  (everything keeps).Evaluable
  := fun _ _ => .inl fun _ _ => trivial

/-- In the regime in which everything is allowed every value may be called. -/
theorem everything_call {keeps : Machine → Machine → Prop} (h : (everything keeps).Keeping)
    (fuel : Nat) :
  Call.Keeps (everything keeps) (Value.call fuel)
  := Value.call_keeps (everything_lawful h) (everything_evaluable keeps) (fun _ _ => trivial) fuel

/-- In the regime in which everything is allowed every tree may be evaluated outside of every
scope. -/
theorem everything_evalTop {keeps : Machine → Machine → Prop} (h : (everything keeps).Keeping)
    (e : Expr) (fuel : Nat) :
  (e.evalTop fuel).Keeps (everything keeps) fun _ => True
  := by
  have hR := everything_lawful h
  have hcall := everything_call h fuel
  exact bounce_keeps hR hcall trivial fuel
    (Expr.eval_keeps hR hcall (everything_evaluable keeps) (Value.call_runsBuiltins fuel)
      fuel trivial fun _ h => absurd h List.not_mem_nil)

end Regime

/-- All work holds values of which nothing is said. -/
theorem Work.holds_everything (keeps : Machine → Machine → Prop) (work : Work) :
  work.Holds (Regime.everything keeps).value
  := by
  cases work with
  | plain f => exact .plain trivial
  | delivery snapshot f arg => exact .delivery (fun _ _ _ _ => trivial) trivial trivial
  | resumption snapshot k arg => exact .resumption (fun _ _ _ _ => trivial) trivial trivial

/-- Every machine holds values of which nothing is said. -/
theorem Machine.obeys_everything (keeps : Machine → Machine → Prop) (m : Machine) :
  m.Obeys (.everything keeps)
  where
  globals _ _ _ := trivial
  atoms _ _ := trivial
  context _ _ _ _ := trivial
  levels _ _ work _ := work.holds_everything keeps
  timers _ _ := ⟨trivial, trivial⟩
  deliveries n := by
    cases (m.stage.deliveries n).result with
    | ok v => exact .ok trivial
    | error d => exact .error trivial
  pending _ _ := ⟨trivial, trivial⟩

/-- A computation that has ended has kept what every operation of the machine keeps. -/
theorem Run.Keeps.kept {α : Type} {keeps : Machine → Machine → Prop} {act : Run α}
    {post : α → Prop} (h : act.Keeps (.everything keeps) post) {m m' : Machine} {r : Ended α}
    (hg : act.Gives m r m') :
  keeps m m'
  := (h.gives (m.obeys_everything keeps) hg).2.2

/-- A machine is what a computation may have made of another one: the executions go on, and
the levels around the innermost one are as they were. -/
structure Machine.Later (m m' : Machine) : Prop where
  heap : m.heap.Continues m'.heap
  outer : m'.levels.tail = m.levels.tail
  depth : m'.levels.length = m.levels.length

/-- Later machines of later machines are later. -/
theorem Machine.Later.trans {m m₁ m₂ : Machine} (h : m.Later m₁) (h₁ : m₁.Later m₂) :
  m.Later m₂
  := ⟨h.heap.trans h₁.heap, h₁.outer.trans h.outer, h₁.depth.trans h.depth⟩

/-- A change of the innermost level makes a later machine. -/
theorem Machine.Later.level {m : Machine} {level level' : Level} {levels : List Level}
    (hl : m.levels = level :: levels) :
  m.Later { m with levels := level' :: levels }
  := ⟨.of_eq rfl, by rw [hl]; rfl, by rw [hl]; rfl⟩

/-- The computations of a level make a later machine. -/
theorem Machine.Later.of_drains {m m' : Machine}
    (h : (Regime.everything Machine.Later).Drains m m') :
  m.Later m'
  := h.keeps Later.trans Later.level

/-- Every operation of the machine makes a later one. -/
theorem Machine.later_keeping :
  (Regime.everything Machine.Later).Keeping
  where
  refl _ := ⟨.of_eq rfl, rfl, rfl⟩
  trans := Later.trans
  inert h := ⟨h.heap, by rw [h.levels], by rw [h.levels]⟩
  noted _ := ⟨.of_eq rfl, rfl, rfl⟩
  enqueued hl _ := .level hl
  counted _ hl := .level hl
  entering h := ⟨h.heap, h.outer, h.depth⟩
  outside h := ⟨h.heap, rfl, rfl⟩
  bounce _ h := by
    have hlater := Later.of_drains h
    exact ⟨hlater.heap, by rw [hlater.outer]; rfl, by rw [hlater.outer]; rfl⟩
  push _ _ _ := ⟨.of_eq rfl, rfl, rfl⟩
  pop _ _ _ _ _ := ⟨.of_eq rfl, rfl, rfl⟩

variable {f v : Value} {vs : List Value} {m m' : Machine} {r : Ended Value}

/-- A call leaves a later machine. -/
theorem Value.CallEnds.later (h : f.CallEnds vs m r m') :
  m.Later m'
  := by
  obtain ⟨n, h⟩ := h
  have hkeeps := Regime.everything_call Machine.later_keeping n f vs trivial fun _ _ => trivial
  exact hkeeps.kept (h n n (Nat.le_refl n) (Nat.le_refl n))

/-- Taking steps leaves a later machine. -/
theorem Trampoline.force_later {c fuel : Nat}
    (h : (force (Value.call c) fuel v).Gives m r m') :
  m.Later m'
  := by
  have hR := Regime.everything_lawful Machine.later_keeping
  have hkeeps :=
    force_keeps hR (Regime.everything_call Machine.later_keeping c) fuel (v := v) trivial
  exact hkeeps.kept h

/-- Doing the work that waits leaves a later machine. -/
theorem Trampoline.runWaiting_later {c fuel : Nat} {first : Option (Condition Value)}
    {late : Ended (Option (Condition Value))}
    (h : (runWaiting (Value.call c) fuel first).Gives m late m') :
  m.Later m'
  := by
  have hR := Regime.everything_lawful Machine.later_keeping
  have hfirst : ∀ d ∈ first, (Regime.everything Machine.Later).value d.data :=
    fun _ _ => trivial
  have hkeeps :=
    runWaiting_keeps hR (Regime.everything_call Machine.later_keeping c) fuel hfirst
  exact .of_drains (hkeeps.gives (m.obeys_everything _) h).2.2

/-- The level in which a later machine is. -/
theorem Machine.Later.levels_eq (h : m.Later m') {level : Level} {levels : List Level}
    (hl : m.levels = level :: levels) :
  ∃ queue steps, m'.levels = ⟨queue, steps⟩ :: levels
  := by
  have houter := h.outer
  have hdepth := h.depth
  rw [hl] at houter hdepth
  cases hl' : m'.levels with
  | nil =>
    rw [hl'] at hdepth
    cases hdepth
  | cons level' levels' =>
    rw [hl'] at houter
    obtain rfl : levels' = levels := houter
    exact ⟨level'.queue, level'.steps, rfl⟩

/-- Outside of every level, a later machine is outside of every level too. -/
theorem Machine.Later.levels_eq_nil (h : m.Later m') (hl : m.levels = []) :
  m'.levels = []
  := by
  have hdepth := h.depth
  rw [hl] at hdepth
  exact List.eq_nil_of_length_eq_zero hdepth

end Skein
