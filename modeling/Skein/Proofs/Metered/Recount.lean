import Skein.Proofs.Metered

/-!
# Machines on which steps are counted otherwise

The operations of a machine neither ask for the limit of steps nor for the steps that its levels
have taken.  On a machine with another limit and other counts of steps they come to the same, and
leave the same machine with the other limit and the other counts.  A computation follows another
one when it comes to the same in this way, as long as the other one is not stopped by a meter.
-/

namespace Skein

open Run

variable {α β : Type}

/-- Another limit, and other counts of steps.  The new count of a level depends on its count and on
the number of levels around it. -/
structure Recount where
  limit : Option Nat
  steps : (around : Nat) → Nat → Nat
  /-- Whether a meter may stop the computation on the machine with the first counts. -/
  metered : Prop

namespace Recount

variable (φ : Recount)

/-- Levels with the other counts of steps. -/
def levels : List Level → List Level
  | [] => []
  | level :: around =>
    { level with steps := φ.steps around.length level.steps } :: levels around

/-- A machine with the other limit and the other counts of steps. -/
def machine (m : Machine) : Machine := { m with limit := φ.limit, levels := φ.levels m.levels }

/-- There are as many levels with the other counts. -/
theorem length_levels (levels : List Level) :
  (φ.levels levels).length = levels.length
  := by
  induction levels with
  | nil => rfl
  | cons level around ih => rw [Recount.levels, List.length_cons, List.length_cons, ih]

/-- Levels stay whose counts stay. -/
theorem levels_of_steps {levels : List Level}
    (h : ∀ around, around < levels.length → ∀ steps, φ.steps around steps = steps) :
  φ.levels levels = levels
  := by
  induction levels with
  | nil => rfl
  | cons level around ih =>
    have hinner := h around.length (Nat.lt_succ_self _) level.steps
    have houter := ih fun a ha => h a (Nat.lt_succ_of_lt ha)
    rw [Recount.levels, hinner, houter]

/-- The innermost level can be left out before or after its steps are counted otherwise. -/
theorem levels_tail (levels : List Level) :
  φ.levels levels.tail = (φ.levels levels).tail
  := by
  cases levels <;> rfl

/-- The innermost level with the other counts. -/
theorem machine_levels_cons {m : Machine} {level : Level} {around : List Level}
    (hl : m.levels = level :: around) :
  (φ.machine m).levels =
    { level with steps := φ.steps around.length level.steps } :: φ.levels around
  := by
  change φ.levels m.levels = _
  rw [hl]
  rfl

/-- A level can be opened before or after the steps are counted otherwise, when it is to start
without steps. -/
theorem machine_opened {m : Machine} (hzero : φ.steps m.levels.length 0 = 0) :
  φ.machine { m with levels := ⟨[], 0⟩ :: m.levels } =
    { φ.machine m with levels := ⟨[], 0⟩ :: (φ.machine m).levels }
  := by
  change { m with
    limit := φ.limit, levels := ⟨[], φ.steps m.levels.length 0⟩ :: φ.levels m.levels } = _
  rw [hzero]
  rfl

/-- The end of a computation on the machine `m` and that of another one on this machine with other
counts mirror each other, unless a meter that may do so has stopped the first one. -/
inductive Mirrors (m : Machine) :
    EStateM.Result Stop Machine α → EStateM.Result Stop Machine α → Prop where
  | ok (a : α) {m' : Machine} (hl : m'.levels.length = m.levels.length) :
    Mirrors m (.ok a m') (.ok a (φ.machine m'))
  | raised (c : Condition Value) {m' : Machine} (hl : m'.levels.length = m.levels.length) :
    Mirrors m (.error (.raised c) m') (.error (.raised c) (φ.machine m'))
  | fault (message : String) (m' : Machine) :
    Mirrors m (.error (.fault message) m') (.error (.fault message) (φ.machine m'))
  | exhausted (m' : Machine) : Mirrors m (.error .exhausted m') (.error .exhausted (φ.machine m'))
  | overrun (h : φ.metered) (m' : Machine) (r : EStateM.Result Stop Machine α) :
    Mirrors m (.error overrun m') r

end Recount

/-- A computation comes to the same as another one, but on machines with other counts of steps, as
long as `least` levels are active. -/
def Run.Follows (φ : Recount) (least : Nat) (act act' : Run α) : Prop :=
  ∀ m : Machine, least ≤ m.levels.length → φ.Mirrors m (act m) (act' (φ.machine m))

/-- A computation does not depend on the counts of steps. -/
def Run.Blind (act : Run α) : Prop := ∀ φ, act.Follows φ 0 act

variable {φ : Recount} {least : Nat}

/-! ### Combining computations -/

/-- What mirrors after something that has not closed a level. -/
theorem Recount.Mirrors.after {m m₁ : Machine} {r r' : EStateM.Result Stop Machine α}
    (h : φ.Mirrors m₁ r r') (hl : m₁.levels.length = m.levels.length) :
  φ.Mirrors m r r'
  := by
  cases h with
  | ok a h => exact .ok a (h.trans hl)
  | raised c h => exact .raised c (h.trans hl)
  | fault message m' => exact .fault message m'
  | exhausted m' => exact .exhausted m'
  | overrun h m' => exact .overrun h m' _

/-- One computation after another, of which the first one is mirrored. -/
theorem Recount.Mirrors.bind {act act' : Run α} {k k' : α → Run β} {m m₁ : Machine}
    (h : φ.Mirrors m (act m₁) (act' (φ.machine m₁)))
    (hk : ∀ a m', m'.levels.length = m.levels.length →
      φ.Mirrors m' (k a m') (k' a (φ.machine m'))) :
  φ.Mirrors m ((act >>= k) m₁) ((act' >>= k') (φ.machine m₁))
  := by
  rw [bind_apply, bind_apply]
  revert h
  generalize act m₁ = r
  generalize act' (φ.machine m₁) = r'
  rintro (⟨a, hl⟩ | ⟨c, hl⟩ | ⟨message, m'⟩ | ⟨m'⟩ | ⟨hmetered, m', r⟩)
  · exact (hk a _ hl).after hl
  · exact .raised c hl
  · exact .fault message m'
  · exact .exhausted m'
  · exact .overrun hmetered m' _

namespace Run.Follows

variable {act act' : Run α} {k k' : α → Run β}

/-- A computation follows another one in fewer machines. -/
theorem mono {more : Nat} (h : act.Follows φ least act') (hle : least ≤ more) :
  act.Follows φ more act'
  := fun m hm => h m (Nat.le_trans hle hm)

/-- One computation after another. -/
theorem bind (h : act.Follows φ least act') (hk : ∀ a, (k a).Follows φ least (k' a)) :
  (act >>= k).Follows φ least (act' >>= k')
  := by
  intro m hm
  refine (h m hm).bind fun a m' hl => hk a m' ?_
  rw [hl]
  exact hm

/-- A computation that does not depend on the counts, and what comes after it. -/
theorem bindBlind (h : act.Blind) (hk : ∀ a, (k a).Follows φ least (k' a)) :
  (act >>= k).Follows φ least (act >>= k')
  := ((h φ).mono (Nat.zero_le least)).bind hk

/-- Running to the end. -/
theorem attempt (h : act.Follows φ least act') :
  act.attempt.Follows φ least act'.attempt
  := by
  intro m hm
  have hmirrors := h m hm
  rw [Run.attempt, Run.attempt]
  revert hmirrors
  generalize act m = r
  generalize act' (φ.machine m) = r'
  rintro (⟨a, hl⟩ | ⟨c, hl⟩ | ⟨message, m'⟩ | ⟨m'⟩ | ⟨hmetered, m', r⟩)
  · exact .ok (.ok a : Ended α) hl
  · exact .ok (.error c : Ended α) hl
  · exact .fault message m'
  · exact .exhausted m'
  · exact .overrun hmetered m' _

/-- Going into a context and back. -/
theorem entering (c : Context Value) (h : act.Follows φ least act') :
  (Run.entering c act).Follows φ least (Run.entering c act')
  := by
  intro m hm
  have hmirrors := h { m with context := c } hm
  rw [Run.entering, Run.entering]
  change φ.Mirrors { m with context := c } (act { m with context := c })
    (act' { φ.machine m with context := c }) at hmirrors
  revert hmirrors
  generalize act { m with context := c } = r
  generalize act' { φ.machine m with context := c } = r'
  rintro (⟨a, hl⟩ | ⟨d, hl⟩ | ⟨message, m'⟩ | ⟨m'⟩ | ⟨hmetered, m', r⟩)
  · exact .ok a hl
  · exact .raised d hl
  · exact .fault message _
  · exact .exhausted _
  · exact .overrun hmetered _ _

/-- Computations for each element of a list. -/
theorem mapM {f f' : α → Run β} (h : ∀ a, (f a).Follows φ least (f' a)) (as : List α) :
  (as.mapM f).Follows φ least (as.mapM f')
  := by
  induction as with
  | nil =>
    rw [List.mapM_nil, List.mapM_nil]
    exact fun _ _ => .ok [] rfl
  | cons a as ih =>
    rw [List.mapM_cons, List.mapM_cons]
    exact (h a).bind fun b => ih.bind fun bs => fun _ _ => .ok (b :: bs) rfl

end Run.Follows

namespace Run.Blind

variable {act : Run α} {k : α → Run β}

/-- What does not depend on the counts follows itself. -/
theorem follows (h : act.Blind) :
  act.Follows φ least act
  := (h φ).mono (Nat.zero_le least)

/-- Values. -/
theorem pure (a : α) :
  (Pure.pure a : Run α).Blind
  := fun _ _ _ => .ok a rfl

/-- Raising a condition. -/
theorem raiseCondition (c : Condition Value) :
  (Run.raiseCondition c : Run α).Blind
  := fun _ _ _ => .raised c rfl

/-- A fault. -/
theorem fault (message : String) :
  (throw (.fault message) : Run α).Blind
  := fun _ m _ => .fault message m

/-- Running out of fuel. -/
theorem exhausted :
  (throw .exhausted : Run α).Blind
  := fun _ m _ => .exhausted m

/-- One computation after another. -/
theorem bind (h : act.Blind) (hk : ∀ a, (k a).Blind) :
  (act >>= k).Blind
  := fun φ => (h φ).bind fun a => hk a φ

/-- Running to the end. -/
theorem attempt (h : act.Blind) :
  act.attempt.Blind
  := fun φ => (h φ).attempt

/-- Going into a context and back. -/
theorem entering (c : Context Value) (h : act.Blind) :
  (Run.entering c act).Blind
  := fun φ => (h φ).entering c

/-- Computations for each element of a list. -/
theorem mapM {f : α → Run β} (h : ∀ a, (f a).Blind) (as : List α) :
  (as.mapM f).Blind
  := fun φ => .mapM (fun a => h a φ) as

/-- What a finished computation has given. -/
theorem ofExcept (r : Ended α) :
  (Run.ofExcept r).Blind
  := by
  cases r with
  | ok a => exact pure a
  | error c => exact raiseCondition c

/-- Raising a condition of a kind that carries a value. -/
theorem raiseWith (kind : ConditionKind) (message : String) (data : Value) :
  (Run.raiseWith kind message data : Run α).Blind
  := raiseCondition _

/-- Raising a condition of a kind. -/
theorem raise (kind : ConditionKind) (message : String) :
  (Run.raise kind message : Run α).Blind
  := raiseCondition _

/-! ### Operations of the machine -/

/-- Giving out a number. -/
theorem freshId :
  Run.freshId.Blind
  := fun _ _ _ => .ok _ rfl

/-- Making a native function. -/
theorem native (make : Nat → Native Value) :
  (Run.native make).Blind
  := freshId.bind fun _ => pure _

/-- Making a thunk. -/
theorem thunk (resume : Value) :
  (Run.thunk resume).Blind
  := freshId.bind fun _ => pure _

/-- Checking the number of arguments. -/
theorem checkArity (arity : Arity) (name : String) (args : List Value) :
  (Run.checkArity arity name args).Blind
  := by
  unfold Run.checkArity
  split
  · exact pure ()
  · exact raise _ _

/-- What is found in the heap, where something is. -/
theorem ofHeap {act : Run α} (find : Heap → Option α)
    (hact : ∀ m, act m = match find m.heap with
      | some a => .ok a m
      | none => .error .exhausted m) :
  act.Blind
  := by
  intro φ m _
  rw [hact, hact]
  change φ.Mirrors m _ (match find m.heap with | some a => _ | none => _)
  cases find m.heap with
  | none => exact .exhausted m
  | some a => exact .ok a rfl

/-- The text of a value. -/
theorem textOf (v : Value) :
  (Run.textOf v).Blind
  := ofHeap (fun h => v.text? h) fun m => by
    unfold Run.textOf
    cases v.text? m.heap <;> rfl

/-- The text of a value for a reader. -/
theorem plainTextOf (v : Value) :
  (Run.plainTextOf v).Blind
  := ofHeap (fun h => v.plainText? h) fun m => by
    unfold Run.plainTextOf
    cases v.plainText? m.heap <;> rfl

/-- A value as an observer sees it. -/
theorem shown (v : Value) :
  (Run.shown v).Blind
  := ofHeap (fun h => v.shown? h) fun m => by
    unfold Run.shown
    cases v.shown? m.heap <;> rfl

/-- The end of a computation as an observer sees it. -/
theorem answer (r : Ended Value) :
  (Run.answer r).Blind
  := by
  cases r with
  | ok v => exact (shown v).bind fun _ => pure _
  | error c => exact (shown c.data).bind fun _ => pure _

/-- Printing a line. -/
theorem printLine (line : String) :
  (Run.printLine line).Blind
  := fun _ _ _ => .ok _ rfl

/-- Writing to the journal. -/
theorem record (e : Entry) :
  (Run.record e).Blind
  := fun _ _ _ => .ok _ rfl

/-- The condition that throwing a value raises. -/
theorem thrown (v : Value) :
  (Run.thrown v).Blind
  := by
  unfold Run.thrown
  split
  · exact pure _
  · exact pure _
  · exact (textOf _).bind fun _ => pure _

/-- Throwing a value. -/
theorem throwValue (v : Value) :
  (Run.throwValue v : Run α).Blind
  := (thrown v).bind raiseCondition

/-- Noting a lookup. -/
theorem noteLookup (x : Symbol) :
  (Run.noteLookup x).Blind
  := by
  intro φ m _
  have hnoted : Run.noteLookup x (φ.machine m) =
      .ok () (φ.machine { m with stage := { m.stage with
        lookups := m.stage.lookups.map ((x, m.context.frames) :: ·)
        depths := m.stage.depths.map ((φ.levels m.levels).length :: ·)
        states := m.stage.states.map ((x, m.drivenState?) :: ·) } }) := rfl
  rw [hnoted, φ.length_levels]
  exact .ok () rfl

/-- Reading the machine. -/
theorem read {k : Machine → Run α}
    (h : ∀ (φ : Recount) m, φ.Mirrors m (k m m) (k (φ.machine m) (φ.machine m))) :
  (MonadState.get >>= k : Run α).Blind
  := fun φ m _ => h φ m

/-- Looking a name up that has no lexical binding. -/
theorem lookupFree (x : Symbol) :
  (Run.lookupFree x).Blind
  := by
  apply (noteLookup x).bind
  intro _
  apply read
  intro φ m
  have hfound : ((φ.machine m).context.lookup? x <|> (φ.machine m).globals.lookup x) =
      (m.context.lookup? x <|> m.globals.lookup x) := rfl
  rw [hfound]
  cases m.context.lookup? x <|> m.globals.lookup x with
  | none => exact .raised _ rfl
  | some v => exact .ok v rfl

/-- Looking a name up. -/
theorem lookup (env : Env) (x : Symbol) :
  (Run.lookup env x).Blind
  := by
  unfold Run.lookup
  split
  · exact pure _
  · exact lookupFree x

/-- Defining a global. -/
theorem define (x : Symbol) (v : Value) :
  (Run.define x v).Blind
  := fun _ _ _ => .ok _ rfl

/-- Making an atom. -/
theorem newAtom (v : Value) :
  (Run.newAtom v).Blind
  := fun _ _ _ => .ok _ rfl

/-- Reading an atom. -/
theorem readAtom (location : Nat) :
  (Run.readAtom location).Blind
  := fun _ _ _ => .ok _ rfl

/-- Writing an atom. -/
theorem writeAtom (location : Nat) (v : Value) :
  (Run.writeAtom location v).Blind
  := fun _ _ _ => .ok _ rfl

/-- Making an execution. -/
theorem newExecution :
  Run.newExecution.Blind
  := fun _ _ _ => .ok _ rfl

/-- The state of an execution. -/
theorem executionState (id : Nat) :
  (Run.executionState id).Blind
  := fun _ _ _ => .ok _ rfl

/-- Changing the state of an execution. -/
theorem changeState (id : Nat) (next : ExecutionState) :
  (Run.changeState id next).Blind
  := fun _ _ _ => .ok _ rfl

/-- Settling an execution. -/
theorem finish (id : Nat) (outcome : Outcome) :
  (Run.finish id outcome).Blind
  := (executionState id).bind fun _ => (changeState id _).bind fun _ => pure _

/-- Changing the state of the execution of a context. -/
theorem changeStateIn (c : Context Value) (next : ExecutionState) :
  (Run.changeStateIn c next).Blind
  := by
  unfold Run.changeStateIn
  split
  · exact changeState _ next
  · exact pure ()

/-- The context. -/
theorem capture :
  Run.capture.Blind
  := fun _ _ _ => .ok _ rfl

/-- Entering a frame. -/
theorem pushFrame (bindings : List (Symbol × Value)) :
  (Run.pushFrame bindings).Blind
  := fun _ _ _ => .ok _ rfl

/-- Leaving frames. -/
theorem popFrames (depth : Nat) :
  (Run.popFrames depth).Blind
  := by
  apply read
  intro φ m
  have hframes : (φ.machine m).context.popTo depth = m.context.popTo depth := rfl
  rw [hframes]
  cases m.context.popTo depth with
  | ok context => exact .ok () rfl
  | error found => exact .raised _ rfl

/-- Letting work wait. -/
theorem enqueue (work : Work) :
  (Run.enqueue work).Blind
  := by
  intro φ m _
  obtain ⟨globals, heap, context, levels, _⟩ := m
  cases levels with
  | nil => exact .ok false rfl
  | cons level levels => exact .ok true rfl

/-- Taking work that waits. -/
theorem dequeue :
  Run.dequeue.Blind
  := by
  intro φ m _
  obtain ⟨globals, heap, context, levels, _⟩ := m
  cases levels with
  | nil => exact .ok none rfl
  | cons level levels =>
    obtain ⟨queue, steps⟩ := level
    cases queue with
    | nil => exact .ok none rfl
    | cons work queue => exact .ok (some work) rfl

end Run.Blind

end Skein
