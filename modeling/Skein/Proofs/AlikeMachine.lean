import Skein.Proofs.Alike
import Skein.Machine

/-!
# Alike machines

Two machines are alike when the values in the same places of them are.  Only the innermost
levels of the trampoline are compared, as many as are given, and the limit of steps is
lifted.  A machine that is alike to itself is sound: every number in it has been given
out.
-/

namespace Skein

variable {W W' : World}

/-- Related lists have related elements in the same places. -/
theorem forall₂_getElem? {α β : Type} {R : α → β → Prop} {as : List α} {bs : List β}
    (h : List.Forall₂ R as bs) (n : Nat) :
  Option.Rel R as[n]? bs[n]?
  := by
  induction h generalizing n with
  | nil => exact .none
  | cons hab _ ih =>
    cases n with
    | zero => exact .some hab
    | succ n => exact ih n

/-- Related lists stay related when elements in the same place are set. -/
theorem forall₂_set {α β : Type} {R : α → β → Prop} {as : List α} {bs : List β}
    (h : List.Forall₂ R as bs) (n : Nat) {a : α} {b : β} (hab : R a b) :
  List.Forall₂ R (as.set n a) (bs.set n b)
  := by
  induction h generalizing n with
  | nil => exact .nil
  | cons h hs ih =>
    cases n with
    | zero => exact .cons hab hs
    | succ n => exact .cons h (ih n)

/-! ### Heaps -/

/-- Heaps with alike contents of atoms and the same executions. -/
structure Heap.Alike (W : World) (h h' : Heap) : Prop where
  atoms : List.Forall₂ (Value.Alike W) h.atoms.toList h'.atoms.toList
  executions : h.executions = h'.executions

/-- Executions have the same state in alike heaps. -/
theorem Heap.Alike.state?_eq {h h' : Heap} (hh : Heap.Alike W h h') (id : Nat) :
  h.state? id = h'.state? id
  := by
  rw [Heap.state?, Heap.state?, hh.executions]

/-- Atoms have alike contents in alike heaps. -/
theorem Heap.Alike.atom_rel {h h' : Heap} (hh : Heap.Alike W h h') (location : Nat) :
  Option.Rel (Value.Alike W) h.atoms[location]? h'.atoms[location]?
  := by
  rw [← Array.getElem?_toList, ← Array.getElem?_toList]
  exact forall₂_getElem? hh.atoms location

/-- Atoms have alike contents in alike heaps, also those that were never made. -/
theorem Heap.Alike.contents {h h' : Heap} (hh : Heap.Alike W h h') (location : Nat) :
  Value.Alike W (h.contents location) (h'.contents location)
  := by
  have hrel := hh.atom_rel location
  rw [Heap.contents, Heap.contents]
  revert hrel
  generalize h.atoms[location]? = o, h'.atoms[location]? = o'
  rintro (hv | _)
  · exact hv
  · exact .scalar .nil

/-! ### Machines -/

/-- Conditions that carry alike values. -/
inductive Condition.Alike (W : World) : Condition Value → Condition Value → Prop where
  | mk {kind : ConditionKind} {message : String} {data data' : Value}
    (h : Value.Alike W data data') :
    Alike W ⟨kind, message, data⟩ ⟨kind, message, data'⟩

/-- Ends that are alike: both a value, or both a condition. -/
inductive Ended.Alike (W : World) :
    Except (Condition Value) Value → Except (Condition Value) Value → Prop where
  | ok {v v' : Value} (h : Value.Alike W v v') : Alike W (.ok v) (.ok v')
  | error {c c' : Condition Value} (h : Condition.Alike W c c') : Alike W (.error c) (.error c')

/-- The same work on alike values. -/
inductive Work.Alike (W : World) : Work → Work → Prop where
  | plain {f f' : Value} (hf : Value.Alike W f f') : Alike W (.plain f) (.plain f')
  | delivery {snapshot snapshot' : Context Value} {f f' arg arg' : Value}
    (hs : Context.Alike (Value.Alike W) snapshot snapshot') (hf : Value.Alike W f f')
    (ha : Value.Alike W arg arg') :
    Alike W (.delivery snapshot f arg) (.delivery snapshot' f' arg')
  | resumption {snapshot snapshot' : Context Value} {k k' arg arg' : Value}
    (hs : Context.Alike (Value.Alike W) snapshot snapshot') (hk : Value.Alike W k k')
    (ha : Value.Alike W arg arg') :
    Alike W (.resumption snapshot k arg) (.resumption snapshot' k' arg')

/-- The innermost levels, one more than `n`, have alike work waiting in them. -/
inductive Level.Alike (W : World) : Nat → List Level → List Level → Prop where
  | innermost {queue queue' : List Work} {steps steps' : Nat} {levels levels' : List Level}
    (h : List.Forall₂ (Work.Alike W) queue queue') :
    Alike W 0 (⟨queue, steps⟩ :: levels) (⟨queue', steps'⟩ :: levels')
  | outer {n : Nat} {queue queue' : List Work} {steps steps' : Nat}
    {levels levels' : List Level} (h : List.Forall₂ (Work.Alike W) queue queue')
    (hs : Alike W n levels levels') :
    Alike W (n + 1) (⟨queue, steps⟩ :: levels) (⟨queue', steps'⟩ :: levels')

/-- Timers for the same time with alike values. -/
structure Timer.Alike (W : World) (t t' : Timer) : Prop where
  deadline : t.deadline = t'.deadline
  order : t.order = t'.order
  callback : Value.Alike W t.callback t'.callback
  value : Value.Alike W t.value t'.value

/-- The same lookup in alike frames. -/
inductive Lookup.Alike (W : World) :
    Symbol × List (Frame Value) → Symbol × List (Frame Value) → Prop where
  | mk {x : Symbol} {frames frames' : List (Frame Value)}
    (h : List.Forall₂ (Frame.Alike (Value.Alike W)) frames frames') :
    Alike W (x, frames) (x, frames')

/-- Two continuations to call with alike arguments. -/
structure Pending.Alike (W : World) (p p' : Value × Value) : Prop where
  target : Value.Alike W p.1 p'.1
  argument : Value.Alike W p.2 p'.2

/-- The same kind of result with alike values. -/
structure Received.Alike (W : World) (r r' : Outcome × Value) : Prop where
  outcome : r.1 = r'.1
  value : Value.Alike W r.2 r'.2

/-- Stages on which alike things have happened, and will happen. -/
structure Stage.Alike (W : World) (s s' : Stage) : Prop where
  deliveries : ∀ n, Ended.Alike W (s.deliveries n).result (s'.deliveries n).result
  late : ∀ n, (s.deliveries n).late = (s'.deliveries n).late
  requests : List.Forall₂ (List.Forall₂ (Value.Alike W)) s.requests s'.requests
  pending : List.Forall₂ (Pending.Alike W) s.pending s'.pending
  results : List.Forall₂ (Received.Alike W) s.results s'.results
  lookups : Option.Rel (List.Forall₂ (Lookup.Alike W)) s.lookups s'.lookups
  states : s.states = s'.states

/-- Two machines are alike, where `own` is an execution that none of their values settles:
the execution of the coroutine that is observed. -/
structure Machine.Alike (own n : Nat) (W : World) (m m' : Machine) : Prop where
  globals : List.Forall₂ (Binding.Alike (Value.Alike W)) m.globals m'.globals
  atoms : List.Forall₂ (Value.Alike W) m.heap.atoms.toList m'.heap.atoms.toList
  executions : m.heap.executions = m'.heap.executions
  context : Context.Alike (Value.Alike W) m.context m'.context
  levels : Level.Alike W n m.levels m'.levels
  limit : m.limit = none
  limit' : m'.limit = none
  out : m.out = m'.out
  timers : List.Forall₂ (Timer.Alike W) m.timers m'.timers
  clock : m.clock = m'.clock
  scheduled : m.scheduled = m'.scheduled
  journal : m.journal = m'.journal
  stage : Stage.Alike W m.stage m'.stage
  injective : W.Injective
  fresh : ∀ i j, W.pairs i j → i < m.nextId ∧ j < m'.nextId
  settled : ∀ id, W.executions id → 0 < id ∧ id ≤ m.heap.executions.size ∧ id ≠ own
  ownBound : own ≤ m.heap.executions.size
  ownState : ∀ s, m.heap.state? own = some s → s.isTerminal = false

/-- Alike machines have alike heaps. -/
theorem Machine.Alike.heap {own n : Nat} {m m' : Machine} (h : Machine.Alike own n W m m') :
  Heap.Alike W m.heap m'.heap
  := ⟨h.atoms, h.executions⟩

/-! ### When more is known -/

section mono

variable (hW : W ≤ W')
include hW

/-- Lists of alike values stay alike. -/
theorem Value.Alike.mono_all {vs vs' : List Value} (h : List.Forall₂ (Alike W) vs vs') :
  List.Forall₂ (Alike W') vs vs'
  := h.imp fun _ _ hv => hv.mono hW

/-- Bindings stay alike. -/
theorem Binding.Alike.mono_all {bs bs' : List (Symbol × Value)}
    (h : List.Forall₂ (Binding.Alike (Value.Alike W)) bs bs') :
  List.Forall₂ (Binding.Alike (Value.Alike W')) bs bs'
  := h.imp fun _ _ hb => hb.imp fun _ _ hv => hv.mono hW

/-- Frames stay alike. -/
theorem Frame.Alike.mono_all {fs fs' : List (Frame Value)}
    (h : List.Forall₂ (Frame.Alike (Value.Alike W)) fs fs') :
  List.Forall₂ (Frame.Alike (Value.Alike W')) fs fs'
  := h.imp fun _ _ hf => hf.imp fun _ _ hv => hv.mono hW

/-- Contexts stay alike. -/
theorem Context.Alike.mono {c c' : Context Value} (h : Context.Alike (Value.Alike W) c c') :
  Context.Alike (Value.Alike W') c c'
  := h.imp fun _ _ hv => hv.mono hW

/-- Conditions stay alike. -/
theorem Condition.Alike.mono {c c' : Condition Value} (h : Condition.Alike W c c') :
  Condition.Alike W' c c'
  := by
  obtain ⟨h⟩ := h
  exact .mk (h.mono hW)

/-- Ends stay alike. -/
theorem Ended.Alike.mono {r r' : Except (Condition Value) Value} (h : Ended.Alike W r r') :
  Ended.Alike W' r r'
  := by
  cases h with
  | ok h => exact .ok (h.mono hW)
  | error h => exact .error (h.mono hW)

/-- Work stays alike. -/
theorem Work.Alike.mono {work work' : Work} (h : Work.Alike W work work') :
  Work.Alike W' work work'
  := by
  cases h with
  | plain hf => exact .plain (hf.mono hW)
  | delivery hs hf ha => exact .delivery (hs.mono hW) (hf.mono hW) (ha.mono hW)
  | resumption hs hk ha => exact .resumption (hs.mono hW) (hk.mono hW) (ha.mono hW)

/-- Levels stay alike. -/
theorem Level.Alike.mono {n : Nat} {ls ls' : List Level} (h : Level.Alike W n ls ls') :
  Level.Alike W' n ls ls'
  := by
  induction h with
  | innermost hq => exact .innermost (hq.imp fun _ _ hw => hw.mono hW)
  | outer hq _ ih => exact .outer (hq.imp fun _ _ hw => hw.mono hW) ih

/-- Timers stay alike. -/
theorem Timer.Alike.mono {t t' : Timer} (h : Timer.Alike W t t') :
  Timer.Alike W' t t'
  := ⟨h.deadline, h.order, h.callback.mono hW, h.value.mono hW⟩

/-- Lookups stay alike. -/
theorem Lookup.Alike.mono {l l' : Symbol × List (Frame Value)} (h : Lookup.Alike W l l') :
  Lookup.Alike W' l l'
  := by
  obtain ⟨h⟩ := h
  exact .mk (Frame.Alike.mono_all hW h)

/-- Stages stay alike. -/
theorem Stage.Alike.mono {s s' : Stage} (h : Stage.Alike W s s') :
  Stage.Alike W' s s'
  where
  deliveries n := (h.deliveries n).mono hW
  late := h.late
  requests := h.requests.imp fun _ _ hvs => Value.Alike.mono_all hW hvs
  pending := h.pending.imp fun _ _ hp => ⟨hp.target.mono hW, hp.argument.mono hW⟩
  results := h.results.imp fun _ _ hr => ⟨hr.outcome, hr.value.mono hW⟩
  lookups := by
    cases hl : s.lookups <;> cases hl' : s'.lookups <;> have hlookups := h.lookups <;>
      rw [hl, hl'] at hlookups <;> cases hlookups
    · exact .none
    · rename_i hs
      exact .some (hs.imp fun _ _ h => h.mono hW)
  states := h.states

/-- Machines stay alike in a larger world whose numbers they have given out. -/
theorem Machine.Alike.mono {own n : Nat} {m m' : Machine} (h : Machine.Alike own n W m m')
    (injective : W'.Injective) (fresh : ∀ i j, W'.pairs i j → i < m.nextId ∧ j < m'.nextId)
    (settled : ∀ id, W'.executions id →
      0 < id ∧ id ≤ m.heap.executions.size ∧ id ≠ own) :
  Machine.Alike own n W' m m'
  where
  globals := Binding.Alike.mono_all hW h.globals
  atoms := Value.Alike.mono_all hW h.atoms
  executions := h.executions
  context := h.context.mono hW
  levels := h.levels.mono hW
  limit := h.limit
  limit' := h.limit'
  out := h.out
  timers := h.timers.imp fun _ _ ht => ht.mono hW
  clock := h.clock
  scheduled := h.scheduled
  journal := h.journal
  stage := h.stage.mono hW
  injective := injective
  fresh := fresh
  settled := settled
  ownBound := h.ownBound
  ownState := h.ownState

end mono

end Skein
