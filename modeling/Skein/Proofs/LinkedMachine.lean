import Skein.Proofs.AlikeScopes
import Skein.Proofs.AtomChains
import Skein.Proofs.Linked

/-!
# Linked machines

Two machines are linked when the values in the same places of them are, where the places of an atom
may have different numbers in the two machines.  They are compared as a whole, or only in what one
computation can reach: then each of them may have atoms that the other one lacks, and may have
printed and scheduled other things.  Only the innermost levels of the trampoline are compared, as
many as are given, and in the outermost one of these only the work that came after the work that
waited there at first.
-/

namespace Skein

variable {R S : Value → Value → Prop} {W W' : Link}

/-! ### Parts of machines -/

/-- Conditions that carry related values. -/
inductive Condition.Rel (R : Value → Value → Prop) : Condition Value → Condition Value → Prop where
  | mk {kind : ConditionKind} {message : String} {data data' : Value} (h : R data data') :
    Rel R ⟨kind, message, data⟩ ⟨kind, message, data'⟩

/-- Ends that are related: both a value, or both a condition. -/
inductive Ended.Rel (R : Value → Value → Prop) :
    Except (Condition Value) Value → Except (Condition Value) Value → Prop where
  | ok {v v' : Value} (h : R v v') : Rel R (.ok v) (.ok v')
  | error {c c' : Condition Value} (h : Condition.Rel R c c') : Rel R (.error c) (.error c')

/-- The same work on related values. -/
inductive Work.Rel (R : Value → Value → Prop) : Work → Work → Prop where
  | plain {f f' : Value} (hf : R f f') : Rel R (.plain f) (.plain f')
  | delivery {snapshot snapshot' : Context Value} {f f' arg arg' : Value}
    (hs : Context.Alike R snapshot snapshot') (hf : R f f') (ha : R arg arg') :
    Rel R (.delivery snapshot f arg) (.delivery snapshot' f' arg')
  | resumption {snapshot snapshot' : Context Value} {k k' arg arg' : Value}
    (hs : Context.Alike R snapshot snapshot') (hk : R k k') (ha : R arg arg') :
    Rel R (.resumption snapshot k arg) (.resumption snapshot' k' arg')

/-- Timers for the same time with related values. -/
structure Timer.Rel (R : Value → Value → Prop) (t t' : Timer) : Prop where
  deadline : t.deadline = t'.deadline
  order : t.order = t'.order
  callback : R t.callback t'.callback
  value : R t.value t'.value

/-- The same lookup in related frames. -/
inductive Lookup.Rel (R : Value → Value → Prop) :
    Symbol × List (Frame Value) → Symbol × List (Frame Value) → Prop where
  | mk {x : Symbol} {frames frames' : List (Frame Value)}
    (h : List.Forall₂ (Frame.Alike R) frames frames') :
    Rel R (x, frames) (x, frames')

/-- Two continuations to call with related arguments. -/
structure Pending.Rel (R : Value → Value → Prop) (p p' : Value × Value) : Prop where
  target : R p.1 p'.1
  argument : R p.2 p'.2

/-- The same kind of result with related values. -/
structure Received.Rel (R : Value → Value → Prop) (r r' : Outcome × Value) : Prop where
  outcome : r.1 = r'.1
  value : R r.2 r'.2

/-- Stages on which related things have happened, and will happen. -/
structure Stage.Rel (R : Value → Value → Prop) (s s' : Stage) : Prop where
  deliveries : ∀ n, Ended.Rel R (s.deliveries n).result (s'.deliveries n).result
  late : ∀ n, (s.deliveries n).late = (s'.deliveries n).late
  requests : List.Forall₂ (List.Forall₂ R) s.requests s'.requests
  pending : List.Forall₂ (Pending.Rel R) s.pending s'.pending
  results : List.Forall₂ (Received.Rel R) s.results s'.results
  lookups : Option.Rel (List.Forall₂ (Lookup.Rel R)) s.lookups s'.lookups
  states : s.states = s'.states

section imp

variable (hRS : ∀ v v', R v v' → S v v')
include hRS

/-- Conditions under a weaker relation. -/
theorem Condition.Rel.imp {c c' : Condition Value} (h : Condition.Rel R c c') :
  Condition.Rel S c c'
  := by
  obtain ⟨h⟩ := h
  exact .mk (hRS _ _ h)

/-- Ends under a weaker relation. -/
theorem Ended.Rel.imp {r r' : Except (Condition Value) Value} (h : Ended.Rel R r r') :
  Ended.Rel S r r'
  := by
  cases h with
  | ok h => exact .ok (hRS _ _ h)
  | error h => exact .error (h.imp hRS)

/-- Work under a weaker relation. -/
theorem Work.Rel.imp {work work' : Work} (h : Work.Rel R work work') :
  Work.Rel S work work'
  := by
  cases h with
  | plain hf => exact .plain (hRS _ _ hf)
  | delivery hs hf ha => exact .delivery (hs.imp hRS) (hRS _ _ hf) (hRS _ _ ha)
  | resumption hs hk ha => exact .resumption (hs.imp hRS) (hRS _ _ hk) (hRS _ _ ha)

/-- Timers under a weaker relation. -/
theorem Timer.Rel.imp {t t' : Timer} (h : Timer.Rel R t t') :
  Timer.Rel S t t'
  := ⟨h.deadline, h.order, hRS _ _ h.callback, hRS _ _ h.value⟩

/-- Lookups under a weaker relation. -/
theorem Lookup.Rel.imp {l l' : Symbol × List (Frame Value)} (h : Lookup.Rel R l l') :
  Lookup.Rel S l l'
  := by
  obtain ⟨h⟩ := h
  exact .mk (h.imp fun _ _ hf => hf.imp hRS)

/-- Stages under a weaker relation. -/
theorem Stage.Rel.imp {s s' : Stage} (h : Stage.Rel R s s') :
  Stage.Rel S s s'
  where
  deliveries n := (h.deliveries n).imp hRS
  late := h.late
  requests := h.requests.imp fun _ _ hvs => hvs.imp hRS
  pending := h.pending.imp fun _ _ hp => ⟨hRS _ _ hp.target, hRS _ _ hp.argument⟩
  results := h.results.imp fun _ _ hr => ⟨hr.outcome, hRS _ _ hr.value⟩
  lookups := by
    have hlookups := h.lookups
    revert hlookups
    generalize s.lookups = o, s'.lookups = o'
    rintro (hs | _)
    · exact .some (hs.imp fun _ _ hl => hl.imp hRS)
    · exact .none
  states := h.states

end imp

/-! ### Parts that are linked -/

/-- Conditions that carry linked values. -/
abbrev Condition.Linked (W : Link) := Condition.Rel (Value.Linked W)

/-- Ends that are linked. -/
abbrev Ended.Linked (W : Link) := Ended.Rel (Value.Linked W)

/-- The same work on linked values. -/
abbrev Work.Linked (W : Link) := Work.Rel (Value.Linked W)

/-- Two scopes are linked for some names. -/
abbrev Env.Linked (W : Link) := Env.Rel (Value.Linked W)

/-- What trees in the tail of a loop give is linked. -/
abbrev TailResult.Linked (W : Link) := TailResult.Rel (Value.Linked W)

/-- Stages on which linked things have happened, and will happen. -/
abbrev Stage.Linked (W : Link) := Stage.Rel (Value.Linked W)

section mono

variable (hW : W ≤ W')
include hW

/-- Lists of linked values stay linked. -/
theorem Value.Linked.mono_all {vs vs' : List Value} (h : List.Forall₂ (Linked W) vs vs') :
  List.Forall₂ (Linked W') vs vs'
  := h.imp fun _ _ hv => hv.mono hW

/-- Bindings stay linked. -/
theorem Binding.Linked.mono_all {bs bs' : List (Symbol × Value)}
    (h : List.Forall₂ (Binding.Alike (Value.Linked W)) bs bs') :
  List.Forall₂ (Binding.Alike (Value.Linked W')) bs bs'
  := h.imp fun _ _ hb => hb.imp fun _ _ hv => hv.mono hW

/-- Contexts stay linked. -/
theorem Context.Linked.mono {c c' : Context Value} (h : Context.Alike (Value.Linked W) c c') :
  Context.Alike (Value.Linked W') c c'
  := h.imp fun _ _ hv => hv.mono hW

/-- Conditions stay linked. -/
theorem Condition.Rel.mono {c c' : Condition Value} (h : Condition.Linked W c c') :
  Condition.Linked W' c c'
  := h.imp fun _ _ hv => hv.mono hW

/-- Ends stay linked. -/
theorem Ended.Rel.mono {r r' : Except (Condition Value) Value} (h : Ended.Linked W r r') :
  Ended.Linked W' r r'
  := h.imp fun _ _ hv => hv.mono hW

/-- Scopes stay linked. -/
theorem Env.Rel.mono {S : Symbol → Prop} {env env' : Env} (h : Env.Linked W S env env') :
  Env.Linked W' S env env'
  := h.imp fun _ _ hv => hv.mono hW

/-- Work stays linked. -/
theorem Work.Rel.mono {work work' : Work} (h : Work.Linked W work work') :
  Work.Linked W' work work'
  := h.imp fun _ _ hv => hv.mono hW

end mono

/-! ### Machines -/

/-- How two machines are compared. -/
structure Likeness where
  /-- Whether they are compared as a whole. -/
  whole : Prop
  /-- An execution that no value settles: the execution of a coroutine that is observed. -/
  own : Nat
  /-- The work that waited first in the outermost level that is compared, in the one machine. -/
  before : List Work
  /-- The work that waited there first in the other machine. -/
  before' : List Work
  /-- The levels around it in the one machine. -/
  outside : List Level
  /-- The levels around it in the other machine. -/
  outside' : List Level
  /-- How many atoms the one machine had at first. -/
  size : Nat
  /-- How many atoms the other machine had at first. -/
  size' : Nat
  /-- Which of these stand for each other. -/
  known : Nat → Nat → Prop

/-- Which atoms stand for each other in machines with `size` and `size'` atoms: of the atoms that
the machines had at first those that are known, and the others in the order in which they were
made.  Atoms that have never been made stand for each other only where machines are compared as a
whole. -/
structure Link.Made (W : Link) (L : Likeness) (size size' : Nat) : Prop where
  least : L.size ≤ size
  grown : size + L.size' = size' + L.size
  known : ∀ i j, W.atoms i j →
    (i < L.size ∧ j < L.size' ∧ L.known i j) ∨ (L.size ≤ i ∧ i + L.size' = j + L.size)
  new : ∀ i j, L.size ≤ i → i < size → i + L.size' = j + L.size → W.atoms i j
  bounded : ¬ L.whole → ∀ i j, W.atoms i j → i < size

/-- The innermost levels, one more than `n`, have linked work waiting in them, apart from the work
that waited first in the outermost one of them. -/
inductive Level.Linked (L : Likeness) (W : Link) : Nat → List Level → List Level → Prop where
  | innermost {queue queue' : List Work} {steps steps' : Nat}
    (h : List.Forall₂ (Work.Linked W) queue queue') :
    Linked L W 0 (⟨L.before ++ queue, steps⟩ :: L.outside)
      (⟨L.before' ++ queue', steps'⟩ :: L.outside')
  | outer {n : Nat} {queue queue' : List Work} {steps steps' : Nat}
    {levels levels' : List Level} (h : List.Forall₂ (Work.Linked W) queue queue')
    (hs : Linked L W n levels levels') :
    Linked L W (n + 1) (⟨queue, steps⟩ :: levels) (⟨queue', steps'⟩ :: levels')

/-- Two machines are linked.  What they have printed, scheduled and noted is the same where they are
compared as a whole. -/
structure Machine.Linked (L : Likeness) (n : Nat) (W : Link) (m m' : Machine) : Prop where
  globals : List.Forall₂ (Binding.Alike (Value.Linked W)) m.globals m'.globals
  atoms : ∀ i j, W.atoms i j → Value.Linked W (m.heap.contents i) (m'.heap.contents j)
  made : W.Made L m.heap.atoms.size m'.heap.atoms.size
  executions : m.heap.executions = m'.heap.executions
  context : Context.Alike (Value.Linked W) m.context m'.context
  levels : Level.Linked L W n m.levels m'.levels
  limit : m.limit = none
  limit' : m'.limit = none
  clock : m.clock = m'.clock
  stage : Stage.Linked W m.stage m'.stage
  injective : W.Injective
  fresh : ∀ i j, W.ids i j → i < m.nextId ∧ j < m'.nextId
  settled : ∀ id, W.executions id → 0 < id ∧ id ≤ m.heap.executions.size ∧ id ≠ L.own
  ownBound : L.own ≤ m.heap.executions.size
  ownState : ∀ s, m.heap.state? L.own = some s → s.isTerminal = false
  out : L.whole → m.out = m'.out
  timers : L.whole → List.Forall₂ (Timer.Rel (Value.Linked W)) m.timers m'.timers
  scheduled : L.whole → m.scheduled = m'.scheduled
  journal : L.whole → m.journal = m'.journal

namespace Link.Made

variable {L : Likeness} {size size' i j : Nat}

/-- Atoms that stand for each other exist together. -/
theorem lt_iff (h : W.Made L size size') (hij : W.atoms i j) :
  i < size ↔ j < size'
  := by
  have := h.least
  have := h.grown
  have := h.known i j hij
  omega

/-- Atoms that stand for each other are new together. -/
theorem eq_iff (h : W.Made L size size') (hij : W.atoms i j) :
  i = size ↔ j = size'
  := by
  have := h.least
  have := h.grown
  have := h.known i j hij
  omega

end Link.Made

/-- Levels stay linked when more is known. -/
theorem Level.Linked.mono (hW : W ≤ W') {L : Likeness} {n : Nat} {ls ls' : List Level}
    (h : Level.Linked L W n ls ls') :
  Level.Linked L W' n ls ls'
  := by
  induction h with
  | innermost hq => exact .innermost (hq.imp fun _ _ hw => hw.mono hW)
  | outer hq _ ih => exact .outer (hq.imp fun _ _ hw => hw.mono hW) ih

/-- The levels around the innermost one are linked. -/
theorem Level.Linked.tail {L : Likeness} {n : Nat} {ls ls' : List Level}
    (h : Level.Linked L W (n + 1) ls ls') :
  Level.Linked L W n ls.tail ls'.tail
  := by
  obtain _ | ⟨_, hs⟩ := h
  exact hs

/-- Levels stay linked when linked work is added to the innermost one. -/
theorem Level.Linked.enqueue {L : Likeness} {n : Nat} {level level' : Level}
    {levels levels' : List Level} {work work' : Work}
    (h : Level.Linked L W n (level :: levels) (level' :: levels')) (hw : Work.Linked W work work') :
  Level.Linked L W n ({ level with queue := level.queue ++ [work] } :: levels)
    ({ level' with queue := level'.queue ++ [work'] } :: levels')
  := by
  cases h with
  | innermost hq =>
    dsimp only
    rw [List.append_assoc, List.append_assoc]
    exact .innermost (List.rel_append hq (.cons hw .nil))
  | outer hq hs => exact .outer (List.rel_append hq (.cons hw .nil)) hs

namespace Machine.Linked

variable {L : Likeness} {n : Nat} {m m' : Machine}

/-- Executions have the same state in linked machines. -/
theorem state?_eq (h : Machine.Linked L n W m m') (id : Nat) :
  m.heap.state? id = m'.heap.state? id
  := by
  rw [Heap.state?, Heap.state?, h.executions]

/-- Linked machines drive executions in the same state. -/
theorem drivenState?_eq (h : Machine.Linked L n W m m') :
  m.drivenState? = m'.drivenState?
  := by
  rw [drivenState?, drivenState?, h.context.execution]
  congr 1
  funext id
  exact h.state?_eq id

/-- Machines stay linked when more functions, thunks and executions are known, whose numbers they
have given out. -/
theorem mono (h : Machine.Linked L n W m m') (hW : W ≤ W')
    (hatoms : ∀ i j, W'.atoms i j → W.atoms i j) (injective : W'.Injective)
    (fresh : ∀ i j, W'.ids i j → i < m.nextId ∧ j < m'.nextId)
    (settled : ∀ id, W'.executions id → 0 < id ∧ id ≤ m.heap.executions.size ∧ id ≠ L.own) :
  Machine.Linked L n W' m m'
  where
  globals := Binding.Linked.mono_all hW h.globals
  atoms i j hij := (h.atoms i j (hatoms i j hij)).mono hW
  made := { h.made with
    known := fun i j hij => h.made.known i j (hatoms i j hij)
    new := fun i j hi hlt hij => hW.2.1 i j (h.made.new i j hi hlt hij)
    bounded := fun hL i j hij => h.made.bounded hL i j (hatoms i j hij) }
  executions := h.executions
  context := h.context.imp fun _ _ hv => hv.mono hW
  levels := h.levels.mono hW
  limit := h.limit
  limit' := h.limit'
  clock := h.clock
  stage := h.stage.imp fun _ _ hv => hv.mono hW
  injective := injective
  fresh := fresh
  settled := settled
  ownBound := h.ownBound
  ownState := h.ownState
  out := h.out
  timers hL := (h.timers hL).imp fun _ _ ht => ht.imp fun _ _ hv => hv.mono hW
  scheduled := h.scheduled
  journal := h.journal

end Machine.Linked

/-! ### Texts -/

namespace Value.Linked

variable {h h' : Heap} {v v' : Value}

/-- Linked values have the same text wherever atoms that stand for each other have. -/
theorem textWith?_eq {atomText atomText' : Nat → Option String}
    (hatoms : ∀ i j, W.atoms i j → atomText i = atomText' j) (executionText : Nat → String)
    (hv : Linked W v v') :
  v.textWith? atomText executionText = v'.textWith? atomText' executionText
  := by
  have all : ∀ {vs vs'},
      List.Forall₂ (LinkedAnd W fun v v' =>
        v.textWith? atomText executionText = v'.textWith? atomText' executionText) vs vs' →
      textsWith? atomText executionText vs = textsWith? atomText' executionText vs' := by
    intro vs vs' hs
    induction hs with
    | nil => rfl
    | cons hv _ ih => rw [textsWith?, textsWith?, hv.2, ih]
  refine Value.Linked.induct (P := fun v v' =>
      v.textWith? atomText executionText = v'.textWith? atomText' executionText)
    ?scalar ?list ?vector ?closure ?builtin ?primitive ?sentinel ?awaitContinuation
    ?awaitFailure ?settle ?inContext ?timer ?instrument ?condition ?thunk ?atom ?execution hv
  case list =>
    intro items items' hs
    rw [textWith?, textWith?, all hs]
  case vector =>
    intro items items' hs
    rw [textWith?, textWith?, all hs]
  case atom => exact hatoms _ _
  all_goals
    intros
    rfl

variable (hatoms : ∀ i j, W.atoms i j → Linked W (h.contents i) (h'.contents j))
  (hexecutions : h.executions = h'.executions)
include hatoms hexecutions

omit hatoms in
/-- Executions have the same texts in heaps with the same executions. -/
theorem executionText_eq :
  h.executionText = h'.executionText
  := by
  funext id
  rw [Heap.executionText, Heap.executionText, Heap.state?, Heap.state?, hexecutions]

/-- Atoms that stand for each other have the same texts. -/
theorem atomText?_eq (fuel : Nat) {i j : Nat} (hij : W.atoms i j) :
  atomText? h fuel i = atomText? h' fuel j
  := by
  induction fuel generalizing i j with
  | zero => rfl
  | succ fuel ih =>
    rw [atomText?, atomText?, executionText_eq hexecutions,
      (hatoms i j hij).textWith?_eq fun _ _ h => ih h]

/-- Linked values have the same text: the number of atoms is no limit for a value that has one. -/
theorem text?_eq (hv : Linked W v v') :
  v.text? h = v'.text? h'
  := by
  have htext : ∀ n, v.textWith? (atomText? h n) h.executionText =
      v'.textWith? (atomText? h' n) h'.executionText := by
    intro n
    rw [executionText_eq hexecutions]
    exact hv.textWith?_eq (fun i j hij => atomText?_eq hatoms hexecutions n hij) _
  by_cases hends : v.Endless h
  · rw [text?_eq_none_iff.2 hends, text?, ← htext, hends.textWith?_eq_none]
  by_cases hends' : v'.Endless h'
  · rw [text?_eq_none_iff.2 hends', text?, htext, hends'.textWith?_eq_none]
  obtain ⟨s, hs⟩ := exists_text_of_not_endless hends
  obtain ⟨s', hs'⟩ := exists_text_of_not_endless hends'
  have hsame : some s = some s' := by
    rw [← hs (max h.atoms.size h'.atoms.size + 1) (by omega),
      ← hs' (max h.atoms.size h'.atoms.size + 1) (by omega), htext]
  rw [text?, text?, hs _ (Nat.lt_succ_self _), hs' _ (Nat.lt_succ_self _), hsame]

/-- Linked values have the same text for a reader. -/
theorem plainText?_eq (hv : Linked W v v') :
  v.plainText? h = v'.plainText? h'
  := by
  have ht := hv.text?_eq hatoms hexecutions
  cases hv with
  | scalar s =>
    cases s with
    | string s => rfl
    | _ => exact ht
  | _ => exact ht

/-- Linked values are shown in the same way. -/
theorem shown?_eq (hv : Linked W v v') :
  v.shown? h = v'.shown? h'
  := by
  refine Value.Linked.induct
    (P := fun v v' => v.text? h = v'.text? h' → v.shown? h = v'.shown? h')
    ?scalar ?list ?vector ?closure ?builtin ?primitive ?sentinel ?awaitContinuation
    ?awaitFailure ?settle ?inContext ?timer ?instrument ?condition ?thunk ?atom ?execution hv
    (hv.text?_eq hatoms hexecutions)
  case condition =>
    intro kind message data data' hd ht
    rw [shown?, shown?, ht, hd.2 (hd.1.text?_eq hatoms hexecutions)]
  all_goals
    intros
    rename_i ht
    simp only [shown?, ht, typeName]

end Value.Linked

end Skein
