import Skein.Eval
import Skein.Proofs.Ending

/-!
# Regimes

A regime says which values a program may hold, which trees it may evaluate and which names
it may look up outside of the lexical bindings, and what its computations keep of the
machine.  A regime is lawful when the operations of the machine respect it one by one; then
every evaluation and every call respects it, however long it runs.
-/

namespace Skein

/-! ### What is held -/

variable {α β : Type}

/-- Every value that the frames of a context bind has a property. -/
def Context.Holds (P : Value → Prop) (c : Context Value) : Prop :=
  ∀ f ∈ c.frames, ∀ b ∈ f.bindings, P b.2

/-- The values of some work have a property. -/
inductive Work.Holds (P : Value → Prop) : Work → Prop where
  | plain {f : Value} (hf : P f) : Holds P (.plain f)
  | delivery {snapshot : Context Value} {f arg : Value} (hs : snapshot.Holds P) (hf : P f)
    (ha : P arg) : Holds P (.delivery snapshot f arg)
  | resumption {snapshot : Context Value} {k arg : Value} (hs : snapshot.Holds P) (hk : P k)
    (ha : P arg) : Holds P (.resumption snapshot k arg)

/-- The value of an end, or what its condition carries, has a property. -/
inductive Ended.Holds (P : Value → Prop) (post : α → Prop) : Ended α → Prop where
  | ok {a : α} (h : post a) : Holds P post (.ok a)
  | error {c : Condition Value} (h : P c.data) : Holds P post (.error c)

/-- Every value that a machine can come to has a property; of the global definitions, only
those with a name of `N` count. -/
structure Machine.Holds (N : Symbol → Prop) (P : Value → Prop) (m : Machine) : Prop where
  globals : ∀ b ∈ m.globals, N b.1 → P b.2
  atoms : ∀ v ∈ m.heap.atoms, P v
  context : m.context.Holds P
  levels : ∀ l ∈ m.levels, ∀ work ∈ l.queue, work.Holds P
  timers : ∀ t ∈ m.timers, P t.callback ∧ P t.value
  deliveries : ∀ n, Ended.Holds P P (m.stage.deliveries n).result
  pending : ∀ p ∈ m.stage.pending, P p.1 ∧ P p.2

/-- The values that a tree in the tail of a loop gives have a property. -/
inductive TailResult.Holds (P : Value → Prop) : TailResult → Prop where
  | value {v : Value} (h : P v) : Holds P (.value v)
  | again {vs : List Value} (h : ∀ v ∈ vs, P v) : Holds P (.again vs)

/-! ### Regimes -/

/-- A regime. -/
structure Regime where
  /-- The names that may be looked up outside of the lexical bindings. -/
  names : Symbol → Prop
  /-- The values that a program may hold. -/
  value : Value → Prop
  /-- The trees that may be evaluated. -/
  code : Expr → Prop
  /-- The trees that may be the bodies of function literals. -/
  body : Expr → Prop
  /-- What a computation keeps: how its machines before and after are related. -/
  keeps : Machine → Machine → Prop
  /-- Whether levels of the trampoline may be opened inside of others. -/
  nests : Prop
  /-- Whether frames of dynamic bindings may be entered and left at any time. -/
  frames : Prop
  /-- The faults with which a computation may stop. -/
  faults : String → Prop := fun _ => True

/-- The values of a machine are those of a regime. -/
def Machine.Obeys (R : Regime) (m : Machine) : Prop := m.Holds R.names R.value

/-- A computation that has stopped has respected a regime: it has kept the machine, and
given a value with a property.  Of a program that cannot go on nothing is said but the
fault. -/
inductive Regime.Kept (R : Regime) (post : α → Prop) (m : Machine) :
    EStateM.Result Stop Machine α → Prop where
  | ok {a : α} {m' : Machine} (h : post a) (hm : m'.Obeys R) (hk : R.keeps m m') :
    Kept R post m (.ok a m')
  | raised {c : Condition Value} {m' : Machine} (h : R.value c.data) (hm : m'.Obeys R)
    (hk : R.keeps m m') : Kept R post m (.error (.raised c) m')
  | fault {message : String} {m' : Machine} (h : R.faults message) :
    Kept R post m (.error (.fault message) m')
  | exhausted {m' : Machine} : Kept R post m (.error .exhausted m')

/-- A computation respects a regime, and gives values with a property. -/
def Run.Keeps (R : Regime) (post : α → Prop) (act : Run α) : Prop :=
  ∀ m : Machine, m.Obeys R → R.Kept post m (act m)

/-- A way to call functions respects a regime. -/
def Trampoline.Call.Keeps (R : Regime) (call : Trampoline.Call) : Prop :=
  ∀ f vs, R.value f → (∀ v ∈ vs, R.value v) → (call f vs).Keeps R R.value

/-- A way to call functions runs those that trees hold, unless it runs out of fuel. -/
def Trampoline.Call.RunsBuiltins (call : Trampoline.Call) : Prop :=
  ∀ (b : Builtin) vs, call (.native (.builtin b)) vs = b.apply vs ∨
    call (.native (.builtin b)) vs = throw .exhausted

/-- A scope binds values of a regime. -/
def Env.Obeys (R : Regime) (env : Env) : Prop := ∀ b ∈ env, R.value b.2

/-- The executions of a heap are in another one, and those that were settled are as they
were. -/
def Heap.Continues (h h' : Heap) : Prop :=
  ∀ id s, h.state? id = some s → ∃ s', h'.state? id = some s' ∧ (s.isTerminal = true → s' = s)

/-- What has happened to the timers of a machine is that new ones have been scheduled, which
are numbered on and are not due in the past. -/
structure Machine.Schedules (new : List Timer) (m m' : Machine) : Prop where
  clock : m'.clock = m.clock
  timers : m'.timers = m.timers ++ new
  scheduled : m'.scheduled = m.scheduled + new.length
  orders : new.map (·.order) = List.range' (m.scheduled + 1) new.length
  due : ∀ t ∈ new, m.clock ≤ t.deadline

/-- Nothing has happened to a machine that a regime could care about. -/
structure Machine.Inert (m m' : Machine) : Prop where
  context : m'.context = m.context
  levels : m'.levels = m.levels
  limit : m'.limit = m.limit
  heap : m.heap.Continues m'.heap
  depths : m'.stage.depths = m.stage.depths
  timers : ∃ new, m.Schedules new m'

/-- Executions go on as they are. -/
theorem Heap.Continues.of_eq {h h' : Heap} (he : h'.executions = h.executions) :
  h.Continues h'
  := by
  intro id s hs
  refine ⟨s, ?_, fun _ => rfl⟩
  rw [Heap.state?] at hs ⊢
  rw [he, hs]

/-- Executions that go on twice go on. -/
theorem Heap.Continues.trans {h h' h'' : Heap} (hh : h.Continues h') (hh' : h'.Continues h'') :
  h.Continues h''
  := by
  intro id s hs
  obtain ⟨s', hs', hkept⟩ := hh id s hs
  obtain ⟨s'', hs'', hkept'⟩ := hh' id s' hs'
  refine ⟨s'', hs'', fun hterminal => ?_⟩
  obtain rfl := hkept hterminal
  exact hkept' hterminal

/-- Where the timers, the clock and their number are as they were, nothing is scheduled. -/
theorem Machine.Schedules.of_eq {m m' : Machine} (hc : m'.clock = m.clock)
    (ht : m'.timers = m.timers) (hs : m'.scheduled = m.scheduled) :
  m.Schedules [] m'
  where
  clock := hc
  timers := by rw [ht, List.append_nil]
  scheduled := hs
  orders := rfl
  due _ h := absurd h List.not_mem_nil

/-- Noting a timer that is due after some time schedules it. -/
theorem Machine.Schedules.singleton (m : Machine) (time : Nat) (callback value : Value) :
  m.Schedules [⟨m.clock + time, m.scheduled + 1, callback, value⟩]
    { m with
      timers := m.timers ++ [⟨m.clock + time, m.scheduled + 1, callback, value⟩]
      scheduled := m.scheduled + 1 }
  where
  clock := rfl
  timers := rfl
  scheduled := rfl
  orders := rfl
  due t ht := by
    obtain rfl := List.mem_singleton.1 ht
    exact Nat.le_add_right m.clock time

/-- What is scheduled after something else is scheduled together with it. -/
theorem Machine.Schedules.trans {m m₁ m₂ : Machine} {new new₁ : List Timer}
    (h : m.Schedules new m₁) (h₁ : m₁.Schedules new₁ m₂) :
  m.Schedules (new ++ new₁) m₂
  where
  clock := h₁.clock.trans h.clock
  timers := by rw [h₁.timers, h.timers, List.append_assoc]
  scheduled := by rw [h₁.scheduled, h.scheduled, List.length_append, Nat.add_assoc]
  orders := by
    rw [List.map_append, h.orders, h₁.orders, h.scheduled, List.length_append,
      Nat.add_right_comm, List.range'_append_1]
  due t ht := by
    rcases List.mem_append.1 ht with ht | ht
    · exact h.due t ht
    · exact h.clock ▸ h₁.due t ht

/-- Nothing has happened to the context, the levels, the executions, the depths and the
timers. -/
theorem Machine.Inert.of_eq {m m' : Machine} (hc : m'.context = m.context)
    (hl : m'.levels = m.levels) (hn : m'.limit = m.limit)
    (he : m'.heap.executions = m.heap.executions) (hd : m'.stage.depths = m.stage.depths)
    (ht : m.Schedules [] m') :
  m.Inert m'
  := ⟨hc, hl, hn, .of_eq he, hd, [], ht⟩

/-- Whether an instrument does the work of a script. -/
def Instrument.isScript : Instrument → Bool
  | perform _ => true
  | _ => false

/-- Whether a function enters or leaves frames. -/
def Builtin.movesFrames : Builtin → Bool
  | pushBindings | popBindings => true
  | _ => false

namespace Regime

/-- What values of a regime are made of. -/
structure Closed (R : Regime) : Prop where
  scalar (s : Scalar) : R.value (.scalar s)
  list_iff {vs : List Value} : R.value (.list vs) ↔ ∀ v ∈ vs, R.value v
  vector_iff {vs : List Value} : R.value (.vector vs) ↔ ∀ v ∈ vs, R.value v
  closure_iff {id : Nat} {name : Option Symbol} {params : List Symbol} {body : Expr}
    {env : List (Symbol × Value)} :
    R.value (.closure id name params body env) ↔ R.body body ∧ ∀ b ∈ env, R.value b.2
  awaitContinuation_iff {id : Nat} {c : Context Value} {k : Value} :
    R.value (.native (.awaitContinuation id c k)) ↔ c.Holds R.value ∧ R.value k
  awaitFailure_iff {id : Nat} {c : Context Value} {k : Value} :
    R.value (.native (.awaitFailure id c k)) ↔ c.Holds R.value ∧ R.value k
  settle_iff {id execution : Nat} {outcome : Outcome} {target : Value} :
    R.value (.native (.settle id execution outcome target)) ↔ R.value target
  inContext_iff {id : Nat} {c : Context Value} {f : Value} :
    R.value (.native (.inContext id c f)) ↔ c.Holds R.value ∧ R.value f
  instrument (id : Nat) {i : Instrument} (h : i.isScript = false) :
    R.value (.native (.instrument id i))
  script_iff {id : Nat} {work : Script} :
    R.value (.native (.instrument id (.perform work))) ↔ R.nests
  condition_iff {c : Condition Value} : R.value (.condition c) ↔ R.value c.data
  thunk_iff {id : Nat} {f : Value} : R.value (.thunk id f) ↔ R.value f
  atom (location : Nat) : R.value (.atom location)
  execution (id : Nat) : R.value (.execution id)
  /-- Starting a coroutine opens a level. -/
  run : R.value (.native (.primitive (.coroutine .run))) → R.nests
  /-- Unwinding a value opens a level. -/
  unwind : R.value (.native (.primitive (.coroutine .unwind))) → R.nests
  builtin {b : Builtin} : R.value (.native (.builtin b)) → b.movesFrames = true → R.frames

/-- What the computations of a level keep: work that waits is taken between them. -/
inductive Drains (R : Regime) : Machine → Machine → Prop where
  | kept {m m' : Machine} (h : R.keeps m m') : Drains R m m'
  | dequeued {m : Machine} {work : Work} {queue : List Work} {steps : Nat} {levels : List Level}
    (hl : m.levels = ⟨work :: queue, steps⟩ :: levels) :
    Drains R m { m with levels := ⟨queue, steps⟩ :: levels }
  | trans {m m₁ m₂ : Machine} (h : Drains R m m₁) (h₁ : Drains R m₁ m₂) : Drains R m m₂

/-- Taking work that waits keeps what any change of the innermost level keeps. -/
theorem Drains.keeps {R : Regime}
    (htrans : ∀ {m m₁ m₂ : Machine}, R.keeps m m₁ → R.keeps m₁ m₂ → R.keeps m m₂)
    (hlevel : ∀ {m : Machine} {level level' : Level} {levels : List Level},
      m.levels = level :: levels → R.keeps m { m with levels := level' :: levels })
    {m m' : Machine} (h : R.Drains m m') :
  R.keeps m m'
  := by
  induction h with
  | kept h => exact h
  | dequeued hl => exact hlevel hl
  | trans _ _ ih ih₁ => exact htrans ih ih₁

/-- The regime of the computations of a level. -/
def draining (R : Regime) : Regime := { R with keeps := R.Drains }

/-- The relation that the computations of a regime keep. -/
structure Keeping (R : Regime) : Prop where
  refl (m : Machine) : R.keeps m m
  trans {m m₁ m₂ : Machine} : R.keeps m m₁ → R.keeps m₁ m₂ → R.keeps m m₂
  inert {m m' : Machine} : m.Inert m' → R.keeps m m'
  /-- A lookup is noted. -/
  noted {m : Machine} {x : Symbol} {lookups : Option (List (Symbol × List (Frame Value)))} :
    R.names x → R.keeps m { m with stage := { m.stage with
      lookups, depths := m.stage.depths.map (m.levels.length :: ·),
      states := m.stage.states.map ((x, m.drivenState?) :: ·) } }
  /-- Some work waits in the innermost level. -/
  enqueued {m : Machine} {level : Level} {levels : List Level}
    (hl : m.levels = level :: levels) (work : Work) :
    R.keeps m { m with levels := { level with queue := level.queue ++ [work] } :: levels }
  /-- A step of the innermost level is counted. -/
  counted {m : Machine} {level : Level} {levels : List Level} {limit : Nat}
    (hlimit : m.limit = some limit) (hl : m.levels = level :: levels) :
    R.keeps m { m with levels := { level with steps := level.steps + 1 } :: levels }
  /-- A computation runs in a context of its own. -/
  entering {m m' : Machine} {c : Context Value} :
    R.keeps { m with context := c } m' → R.keeps m { m' with context := m.context }
  /-- A computation runs outside of every level. -/
  outside {m m' : Machine} :
    R.keeps { m with levels := [] } m' → R.keeps m { m' with levels := m.levels }
  /-- A computation runs in a level of its own, and the work that waits there is done. -/
  bounce {m m' : Machine} : m.levels = [] ∨ R.nests →
    R.Drains { m with levels := ⟨[], 0⟩ :: m.levels } m' →
    R.keeps m { m' with levels := m'.levels.tail }
  push : R.frames → ∀ (m : Machine) bindings,
    R.keeps m { m with context := m.context.push bindings }
  pop : R.frames → ∀ (m : Machine) depth c,
    m.context.popTo depth = .ok c → R.keeps m { m with context := c }

/-- What the trees of a regime are made of. -/
structure Compiled (R : Regime) : Prop where
  held {b : Builtin} : R.code (.builtin b) → R.value (.native (.builtin b))
  var {x : Symbol} : R.code (.var x) → R.names x
  lambda {name : Option Symbol} {params : List Symbol} {body : Expr} :
    R.code (.lambda name params body) → R.body body

/-- The faults with which the operations of the machine stop. -/
def operationFaults : List String :=
  ["attempt to calculate the remainder with overflow",
    "the stage answers for its own operation only", "too many binding frames"]

/-- The operations of the machine respect a regime. -/
structure Lawful (R : Regime) : Prop extends R.Closed, R.Keeping, R.Compiled where
  stops : ∀ message ∈ operationFaults, R.faults message := by exact fun _ _ => trivial

/-- Evaluating a tree respects a regime when calling functions and evaluating trees of the
regime with less fuel does. -/
def Special (R : Regime) (e : Expr) : Prop :=
  ∀ (call : Trampoline.Call) (fuel : Nat), call.Keeps R → call.RunsBuiltins →
    (∀ k ≤ fuel, ∀ (env : Env) (e : Expr), R.code e → env.Obeys R →
      (e.tail call k env).Keeps R (TailResult.Holds R.value)) →
    ∀ env : Env, env.Obeys R →
      (e.tail call (fuel + 1) env).Keeps R (TailResult.Holds R.value)

/-- The trees of a regime are made of trees of the regime, or evaluating them respects it for
another reason. -/
def Evaluable (R : Regime) : Prop :=
  ∀ e, R.code e → (∀ c ∈ e.children, R.code c) ∨ R.Special e

end Regime

/-! ### Combining computations -/

/-- What is kept after something else has been kept. -/
theorem Regime.Kept.afterOf {R : Regime}
    (htrans : ∀ {m m₁ m₂ : Machine}, R.keeps m m₁ → R.keeps m₁ m₂ → R.keeps m m₂)
    {post : α → Prop} {m m₁ : Machine} {r : EStateM.Result Stop Machine α}
    (h : R.Kept post m₁ r) (hk : R.keeps m m₁) :
  R.Kept post m r
  := by
  cases h with
  | ok ha hm hk₁ => exact .ok ha hm (htrans hk hk₁)
  | raised hc hm hk₁ => exact .raised hc hm (htrans hk hk₁)
  | fault h => exact .fault h
  | exhausted => exact .exhausted

/-- What is kept after something else has been kept, in a lawful regime. -/
theorem Regime.Kept.after {R : Regime} (hR : R.Lawful) {post : α → Prop} {m m₁ : Machine}
    {r : EStateM.Result Stop Machine α} (h : R.Kept post m₁ r) (hk : R.keeps m m₁) :
  R.Kept post m r
  := h.afterOf hR.trans hk

/-- What is kept by one computation after another, when the first one has kept something. -/
theorem Regime.Kept.bindOf {R : Regime}
    (htrans : ∀ {m m₁ m₂ : Machine}, R.keeps m m₁ → R.keeps m₁ m₂ → R.keeps m m₂)
    {post : α → Prop} {post' : β → Prop} {act : Run α} {k : α → Run β} {m m₁ : Machine}
    (h : R.Kept post m (act m₁)) (hk : ∀ a, post a → (k a).Keeps R post') :
  R.Kept post' m ((act >>= k) m₁)
  := by
  rw [Run.bind_apply]
  revert h
  generalize act m₁ = r
  rintro (⟨ha, hm₂, hk₂⟩ | ⟨hc, hm₂, hk₂⟩ | ⟨hf⟩ | _)
  · exact (hk _ ha _ hm₂).afterOf htrans hk₂
  · exact .raised hc hm₂ hk₂
  · exact .fault hf
  · exact .exhausted

/-- What is kept by one computation after another in a lawful regime. -/
theorem Regime.Kept.bind {R : Regime} (hR : R.Lawful) {post : α → Prop} {post' : β → Prop}
    {act : Run α} {k : α → Run β} {m m₁ : Machine} (h : R.Kept post m (act m₁))
    (hk : ∀ a, post a → (k a).Keeps R post') :
  R.Kept post' m ((act >>= k) m₁)
  := h.bindOf hR.trans hk

namespace Run.Keeps

variable {R : Regime} {post : α → Prop} {post' : β → Prop}

/-- Computations respect a regime with a weaker property. -/
theorem imp {act : Run α} {post' : α → Prop} (h : act.Keeps R post)
    (hp : ∀ a, post a → post' a) :
  act.Keeps R post'
  := by
  intro m hm
  have ha := h m hm
  revert ha
  generalize act m = r
  rintro (⟨ha, hm, hk⟩ | ⟨hc, hm, hk⟩ | ⟨hf⟩ | _)
  · exact .ok (hp _ ha) hm hk
  · exact .raised hc hm hk
  · exact .fault hf
  · exact .exhausted

/-- A fault respects a regime in which it may happen. -/
theorem fault {message : String} (h : R.faults message) :
  (throw (.fault message) : Run α).Keeps R post
  := fun _ _ => .fault h

/-- Running out of fuel respects every regime. -/
theorem exhausted :
  (throw .exhausted : Run α).Keeps R post
  := fun _ _ => .exhausted

/-- A change of the machine respects a regime when it keeps the machine. -/
theorem modifyGet {f : Machine → α × Machine}
    (h : ∀ m, m.Obeys R → post (f m).1 ∧ (f m).2.Obeys R ∧ R.keeps m (f m).2) :
  (MonadStateOf.modifyGet f : Run α).Keeps R post
  := by
  intro m hm
  obtain ⟨ha, hm', hk⟩ := h m hm
  exact .ok ha hm' hk

/-- A change of the machine that gives nothing. -/
theorem change {f : Machine → Machine} (h : ∀ m, m.Obeys R → (f m).Obeys R ∧ R.keeps m (f m)) :
  (modify f : Run Unit).Keeps R fun _ => True
  := by
  intro m hm
  obtain ⟨hm', hk⟩ := h m hm
  exact .ok trivial hm' hk

/-- Reading the machine respects a regime. -/
theorem read {k : Machine → Run α}
    (h : ∀ m, m.Obeys R → R.Kept post m (k m m)) :
  (MonadState.get >>= k : Run α).Keeps R post
  := h

/-- Computations that respect a regime respect that of the computations of a level. -/
theorem draining {act : Run α} (h : act.Keeps R post) :
  act.Keeps R.draining post
  := by
  intro m hm
  have ha := h m hm
  revert ha
  generalize act m = r
  rintro (⟨ha, hm, hk⟩ | ⟨hc, hm, hk⟩ | ⟨hf⟩ | _)
  · exact .ok ha hm (.kept hk)
  · exact .raised hc hm (.kept hk)
  · exact .fault hf
  · exact .exhausted

/-- One computation of a level after another. -/
theorem bindDraining {act : Run α} {k : α → Run β} (h : act.Keeps R.draining post)
    (hk : ∀ a, post a → (k a).Keeps R.draining post') :
  (act >>= k).Keeps R.draining post'
  := fun m hm => (h m hm).bindOf Regime.Drains.trans hk

section lawful

variable (hR : R.Lawful)
include hR

/-- Values respect a regime. -/
theorem pure {a : α} (h : post a) :
  (Pure.pure a : Run α).Keeps R post
  := fun m hm => .ok h hm (hR.refl m)

/-- Raising a condition that carries a value of the regime respects it. -/
theorem raiseCondition {c : Condition Value} (h : R.value c.data) :
  (Run.raiseCondition c : Run α).Keeps R post
  := fun m hm => .raised h hm (hR.refl m)

/-- One computation after another respects a regime. -/
theorem bind {act : Run α} {k : α → Run β} (h : act.Keeps R post)
    (hk : ∀ a, post a → (k a).Keeps R post') :
  (act >>= k).Keeps R post'
  := fun m hm => (h m hm).bind hR hk

/-- What a finished computation has given respects a regime. -/
theorem ofExcept {r : Ended α} (h : Ended.Holds R.value post r) :
  (Run.ofExcept r).Keeps R post
  := by
  cases h with
  | ok h => exact pure hR h
  | error h => exact raiseCondition hR h

/-- Computations for each element of a list respect a regime. -/
theorem mapM {f : α → Run β} {as : List α} (h : ∀ a ∈ as, (f a).Keeps R post') :
  (as.mapM f).Keeps R fun bs => ∀ b ∈ bs, post' b
  := by
  induction as with
  | nil =>
    rw [List.mapM_nil]
    exact pure hR fun _ hb => absurd hb List.not_mem_nil
  | cons a as ih =>
    rw [List.mapM_cons]
    obtain ⟨ha, has⟩ := List.forall_mem_cons.1 h
    apply bind hR ha
    intro b hb
    apply bind hR (ih has)
    intro bs hbs
    exact pure hR (List.forall_mem_cons.2 ⟨hb, hbs⟩)

/-- Going into a context and back respects a regime. -/
theorem entering {c : Context Value} {act : Run α} (hc : c.Holds R.value)
    (h : act.Keeps R post) :
  (Run.entering c act).Keeps R post
  := by
  intro m hm
  have ha := h { m with context := c } { hm with context := hc }
  rw [Run.entering]
  revert ha
  generalize act { m with context := c } = r
  rintro (⟨ha, hm', hk⟩ | ⟨hc, hm', hk⟩ | ⟨hf⟩ | _)
  · exact .ok ha { hm' with context := hm.context } (hR.entering hk)
  · exact .raised hc { hm' with context := hm.context } (hR.entering hk)
  · exact .fault hf
  · exact .exhausted

/-- Going outside of every level and back respects a regime. -/
theorem outside {act : Run α} (h : act.Keeps R post) :
  (Run.outside act).Keeps R post
  := by
  intro m hm
  have ha := h { m with levels := [] } { hm with levels := fun _ hl => absurd hl List.not_mem_nil }
  rw [Run.outside]
  revert ha
  generalize act { m with levels := [] } = r
  rintro (⟨ha, hm', hk⟩ | ⟨hc, hm', hk⟩ | ⟨hf⟩ | _)
  · exact .ok ha { hm' with levels := hm.levels } (hR.outside hk)
  · exact .raised hc { hm' with levels := hm.levels } (hR.outside hk)
  · exact .fault hf
  · exact .exhausted

end lawful

/-- Running to the end respects a regime. -/
theorem attempt {act : Run α} (h : act.Keeps R post) :
  act.attempt.Keeps R (Ended.Holds R.value post)
  := by
  intro m hm
  have ha := h m hm
  rw [Run.attempt]
  revert ha
  generalize act m = r
  rintro (⟨ha, hm, hk⟩ | ⟨hc, hm, hk⟩ | ⟨hf⟩ | _)
  · exact .ok (.ok ha) hm hk
  · exact .ok (.error hc) hm hk
  · exact .fault hf
  · exact .exhausted

/-- What a computation that has ended has respected. -/
theorem gives {act : Run α} (h : act.Keeps R post) {m m' : Machine} {r : Ended α}
    (hm : m.Obeys R) (hg : act.Gives m r m') :
  Ended.Holds R.value post r ∧ m'.Obeys R ∧ R.keeps m m'
  := by
  have hkept := h m hm
  unfold Run.Gives at hg
  rw [hg] at hkept
  cases r with
  | ok a =>
    cases hkept with
    | ok ha hm hk => exact ⟨.ok ha, hm, hk⟩
  | error d =>
    cases hkept with
    | raised hd hm hk => exact ⟨.error hd, hm, hk⟩

end Run.Keeps

end Skein
