import Skein.Proofs.Rehearsal
import Skein.Proofs.Regime.Everything

/-!
# The order of work

A computation in a level of its own leaves the levels around it as they were.  Whatever it
does, and whatever the work does that waits in its level, all that happens to a level from
inside is that more work waits at its end; levels that are opened inside of it are closed
again.  So the work that waits in a level is done one piece after another, in the order in
which it was given, with what is given meanwhile, and the level comes to the first condition
that is raised.
-/

namespace Skein

open Run Trampoline

variable {α β : Type} {m m' m₁ m₂ : Machine} {given given' : List Work}

/-! ### Letting work wait -/

/-- Levels of which the innermost one has some more work at its end. -/
def Level.queueing (given : List Work) : List Level → List Level
  | [] => []
  | level :: levels => { level with queue := level.queue ++ given } :: levels

/-- Steps are not limited, and all that has happened to the levels is that some work waits in
the innermost one. -/
structure Machine.Lets (given : List Work) (m m' : Machine) : Prop where
  limit : m'.limit = none
  levels : m'.levels = Level.queueing given m.levels

/-- A computation touches the levels by letting work wait in the innermost one, and in no
other way. -/
def Run.Defers (act : Run α) : Prop :=
  ∀ m r m', m.limit = none → act.Gives m r m' → ∃ given, Machine.Lets given m m'

/-- Levels in which no more work waits. -/
theorem Level.queueing_nil (levels : List Level) :
  queueing [] levels = levels
  := by
  cases levels with
  | nil => rfl
  | cons level levels => rw [queueing, List.append_nil]

/-- Levels in which more work waits twice. -/
theorem Level.queueing_append (given given' : List Work) (levels : List Level) :
  queueing (given ++ given') levels = queueing given' (queueing given levels)
  := by
  cases levels with
  | nil => rfl
  | cons level levels => simp only [queueing, List.append_assoc]

/-- The levels around the one in which more work waits. -/
theorem Level.queueing_tail (given : List Work) (levels : List Level) :
  (queueing given levels).tail = levels.tail
  := by
  cases levels <;> rfl

/-- Nothing has happened to the levels. -/
theorem Machine.Lets.of_eq (hlimit : m'.limit = none) (hl : m'.levels = m.levels) :
  Machine.Lets [] m m'
  := ⟨hlimit, hl.trans (Level.queueing_nil _).symm⟩

/-- What is given first waits before what is given then. -/
theorem Machine.Lets.trans (h : Machine.Lets given m m₁) (h₁ : Machine.Lets given' m₁ m₂) :
  Machine.Lets (given ++ given') m m₂
  := by
  refine ⟨h₁.limit, ?_⟩
  rw [h₁.levels, h.levels, Level.queueing_append]

/-- What is kept of the levels, where steps are not limited. -/
def Machine.Defers (m m' : Machine) : Prop := m.limit = none → ∃ given, Machine.Lets given m m'

/-- A level in which work is done is closed as it was opened: the levels around it stay. -/
theorem Machine.Defers.of_drains (h : (Regime.everything Machine.Defers).Drains m m')
    (hlimit : m.limit = none) :
  m'.limit = none ∧ m'.levels.tail = m.levels.tail
  := by
  induction h with
  | kept h =>
    obtain ⟨given, hlimit', hlevels⟩ := h hlimit
    exact ⟨hlimit', by rw [hlevels, Level.queueing_tail]⟩
  | dequeued hl => exact ⟨hlimit, by rw [hl]; rfl⟩
  | trans _ _ ih ih₁ =>
    obtain ⟨hlimit₁, htail⟩ := ih hlimit
    obtain ⟨hlimit₂, htail₁⟩ := ih₁ hlimit₁
    exact ⟨hlimit₂, htail₁.trans htail⟩

/-- Every operation of the machine touches the levels by letting work wait only. -/
theorem Machine.defers_keeping :
  (Regime.everything Machine.Defers).Keeping
  where
  refl m hlimit := ⟨[], .of_eq hlimit rfl⟩
  trans h h₁ hlimit := by
    obtain ⟨given, hlets⟩ := h hlimit
    obtain ⟨given₁, hlets₁⟩ := h₁ hlets.limit
    exact ⟨given ++ given₁, hlets.trans hlets₁⟩
  inert h hlimit := ⟨[], .of_eq (h.limit.trans hlimit) h.levels⟩
  noted _ hlimit := ⟨[], .of_eq hlimit rfl⟩
  enqueued hl work hlimit := ⟨[work], hlimit, by rw [hl]; rfl⟩
  counted hsome _ hlimit := by cases hsome.symm.trans hlimit
  entering h hlimit := by
    obtain ⟨given, hlets⟩ := h hlimit
    exact ⟨given, hlets.limit, hlets.levels⟩
  outside h hlimit := by
    obtain ⟨_, hlets⟩ := h hlimit
    exact ⟨[], .of_eq hlets.limit rfl⟩
  bounce _ h hlimit := by
    obtain ⟨hlimit', htail⟩ := Defers.of_drains h hlimit
    exact ⟨[], .of_eq hlimit' htail⟩
  push _ _ _ hlimit := ⟨[], .of_eq hlimit rfl⟩
  pop _ _ _ _ _ hlimit := ⟨[], .of_eq hlimit rfl⟩

/-! ### Computations that let work wait only -/

namespace Run.Defers

/-- The regime in which the levels are touched by letting work wait only. -/
theorem lawful :
  (Regime.everything Machine.Defers).Lawful
  := Regime.everything_lawful Machine.defers_keeping

/-- Computations that respect the regime touch the levels by letting work wait only. -/
theorem of_keeps {post : α → Prop} {act : Run α}
    (h : act.Keeps (.everything Machine.Defers) post) :
  act.Defers
  := fun _ _ _ hlimit hg => h.kept hg hlimit

/-- Computations that touch the levels by letting work wait only respect the regime. -/
theorem keeps {act : Run α} (h : act.Defers) :
  act.Keeps (.everything Machine.Defers) fun _ => True
  := by
  intro m _
  have hends : ∀ r m', act.Gives m r m' → m.Defers m' := fun r m' hg hlimit =>
    h m r m' hlimit hg
  revert hends
  unfold Run.Gives
  generalize act m = result
  intro hends
  cases result with
  | ok a m' => exact .ok trivial (m'.obeys_everything _) (hends (.ok a) m' rfl)
  | error stop m' =>
    cases stop with
    | raised d => exact .raised trivial (m'.obeys_everything _) (hends (.error d) m' rfl)
    | fault message => exact .fault trivial
    | exhausted => exact .exhausted

/-- A value touches no level. -/
theorem pure (a : α) :
  (Pure.pure a : Run α).Defers
  := by
  have h : (Pure.pure a : Run α).Keeps (.everything Machine.Defers) fun _ => True :=
    Keeps.pure lawful trivial
  exact of_keeps h

/-- One computation after another. -/
theorem bind {act : Run α} {k : α → Run β} (h : act.Defers) (hk : ∀ a, (k a).Defers) :
  (act >>= k).Defers
  := of_keeps (Keeps.bind lawful h.keeps fun a _ => (hk a).keeps)

end Run.Defers

section calling

variable {c fuel : Nat}

/-- Whatever is called touches the levels by letting work wait only. -/
theorem Value.call_defers (f : Value) (vs : List Value) :
  (Value.call c f vs).Defers
  := .of_keeps (Regime.everything_call Machine.defers_keeping c f vs trivial fun _ _ => trivial)

/-- Whatever is evaluated touches the levels by letting work wait only. -/
theorem Expr.eval_defers (e : Expr) (env : Env) :
  (e.eval (Value.call c) fuel env).Defers
  := .of_keeps (Expr.eval_keeps Run.Defers.lawful
    (Regime.everything_call Machine.defers_keeping c) (Regime.everything_evaluable _)
    (Value.call_runsBuiltins c) fuel trivial fun _ _ => trivial)

/-- Steps touch the levels by letting work wait only. -/
theorem Trampoline.force_defers (v : Value) :
  (force (Value.call c) fuel v).Defers
  := .of_keeps (force_keeps Run.Defers.lawful (Regime.everything_call Machine.defers_keeping c) fuel
    trivial)

/-- A level of its own is closed again, whatever happens in it. -/
theorem Trampoline.bounce_defers {start : Run Value} (h : start.Defers) :
  (bounce (Value.call c) fuel start).Defers
  := .of_keeps (bounce_keeps Run.Defers.lawful
    (Regime.everything_call Machine.defers_keeping c) trivial fuel h.keeps)

/-- Starting a coroutine closes the level that it opens. -/
theorem Trampoline.start_defers (coroutine resolve reject : Value) :
  (start (Value.call c) fuel coroutine resolve reject).Defers
  := .of_keeps (start_keeps Run.Defers.lawful
    (Regime.everything_call Machine.defers_keeping c) trivial fuel trivial trivial trivial)

/-- In an active level, the work that is to be resumed is the work that waits. -/
theorem Trampoline.resume_lets {level : Level} {levels : List Level} (hlimit : m.limit = none)
    (hl : m.levels = level :: levels) (work : Work) :
  ∃ m', (resume (Value.call c) fuel work).Gives m (.ok .nil) m' ∧ Machine.Lets [work] m m'
  := by
  refine ⟨{ m with levels := Level.queueing [work] m.levels }, ?_, hlimit, rfl⟩
  obtain ⟨_, _, _, _, _⟩ := m
  cases hl
  rfl

end calling

/-! ### Work that is done in order -/

/-- A piece of work that has been done: what it came to, when its value had taken all steps,
and the work that it has let wait in the level meanwhile. -/
structure Performed where
  work : Work
  result : Ended Value
  given : List Work

/-- The condition that a piece of work has raised. -/
def Performed.raised (p : Performed) : Option (Condition Value) :=
  match p.result with
  | .ok _ => none
  | .error d => some d

/-- The work that waits in the innermost level is done, always the first piece, until none
waits. -/
inductive Trampoline.Performs (call : Call) (fuel : Nat) :
    Machine → List Performed → Machine → Prop where
  | none {m : Machine} {steps : Nat} {levels : List Level}
    (hl : m.levels = ⟨[], steps⟩ :: levels) : Performs call fuel m [] m
  | next {m m₁ m₂ : Machine} {p : Performed} {ps : List Performed} {queue : List Work}
    {steps : Nat} {levels : List Level} (hl : m.levels = ⟨p.work :: queue, steps⟩ :: levels)
    (hdone : (perform call p.work >>= force call fuel).Gives
      { m with levels := ⟨queue, steps⟩ :: levels } p.result m₁)
    (hgiven : Machine.Lets p.given { m with levels := ⟨queue, steps⟩ :: levels } m₁)
    (hrest : Performs call fuel m₁ ps m₂) : Performs call fuel m (p :: ps) m₂

namespace Trampoline

/-- The work is done in the order in which it waits, each piece once, and then what has been
given meanwhile, in the order in which it was given. -/
theorem Performs.works {call : Call} {fuel : Nat} {ps : List Performed} {queue : List Work}
    {steps : Nat} {levels : List Level} (h : Performs call fuel m ps m')
    (hl : m.levels = ⟨queue, steps⟩ :: levels) :
  ps.map (·.work) = queue ++ ps.flatMap (·.given) ∧ m'.levels = ⟨[], steps⟩ :: levels
  := by
  induction h generalizing queue with
  | none hnone =>
    cases hnone.symm.trans hl
    exact ⟨rfl, hl⟩
  | @next m m₁ m₂ p ps rest _ _ hnext _ hgiven _ ih =>
    cases hnext.symm.trans hl
    obtain ⟨hworks, hlevels⟩ := ih hgiven.levels
    refine ⟨?_, hlevels⟩
    rw [List.map_cons, List.flatMap_cons, hworks, List.append_assoc, List.cons_append]

variable {c fuel : Nat}

/-- Work that is done with some fuel is done in the same way with more. -/
theorem Performs.mono {fuel' : Nat} {ps : List Performed}
    (h : Performs (Value.call c) fuel m ps m') (hfuel : fuel ≤ fuel') :
  Performs (Value.call c) fuel' m ps m'
  := by
  induction h with
  | none hl => exact .none hl
  | @next m m₁ m₂ p ps queue steps levels hl hdone hgiven _ ih =>
    have hbelow : Below (perform (Value.call c) p.work >>= force (Value.call c) fuel)
        (perform (Value.call c) p.work >>= force (Value.call c) fuel') :=
      .bind (.refl _) fun v => force_below (Value.call_below (Nat.le_refl c)) hfuel v
    exact .next hl (hbelow _ _ _ hdone) hgiven ih

end Trampoline

end Skein
