import Skein.Proofs.Observed

/-!
# What coroutines mean

A coroutine means what its body means when each awaited call has at once the value, or
raises the condition, that its operation delivers.  This holds of every body in which no
call leaves work waiting in the level of the trampoline that it was made in, and in which
a loop around an awaited call is entered anew in the context of the last awaited call.

The code of a body keeps the second proviso by itself: it goes back to the context of the
last awaited call when it enters such a loop anew.  What it does without the proviso is
what the body does where that happens.
-/

namespace Skein

open Coroutine

/-- A name that a body can mention: one that has been numbered, other than that of the
breakpoint. -/
def SymbolTable.User (t : SymbolTable) (x : Symbol) : Prop := x ∈ t.names ∧ x ≠ "await"

/-- The scope of a body whose awaited calls are answered by the stage. -/
def Env.answering (env : Env) (id : Nat) : Env :=
  ("await", .native (.instrument id .answer)) :: env

/-- The same things have happened on both machines, but that one result more has been
received on the second one, which is the end `r` and settles the execution `own`. -/
structure Delivered (own : Nat) (W : World) (r : Ended Value) (m m' : Machine) : Prop where
  injective : W.Injective
  globals : List.Forall₂ (Binding.Alike (Value.Alike W)) m.globals m'.globals
  atoms : List.Forall₂ (Value.Alike W) m.heap.atoms.toList m'.heap.atoms.toList
  out : m'.out = m.out
  journal : m'.journal = m.journal
  timers : List.Forall₂ (Timer.Alike W) m.timers m'.timers
  /-- The operation has been asked for alike things, in the same order. -/
  requests : List.Forall₂ (List.Forall₂ (Value.Alike W)) m.stage.requests m'.stage.requests
  pending : m'.stage.pending = []
  results : ∃ v results, m'.stage.results = (r.outcome, v) :: results ∧
    Value.Alike W r.payload v ∧ List.Forall₂ (Received.Alike W) m.stage.results results
  state : m'.heap.state? own = some (.settled r.outcome)
  states : ∀ id, id ≠ own → m'.heap.state? id = m.heap.state? id

variable {W : World} {own : Nat} {r : Ended Value} {m m₁ m' : Machine}

/-- Alike ends are the same kind of result. -/
theorem Ended.Alike.outcome_eq {r' : Ended Value} (h : Ended.Alike W r r') :
  r'.outcome = r.outcome
  := by
  cases h <;> rfl

/-- Alike ends deliver alike values. -/
theorem Ended.Alike.payload {r' : Ended Value} (h : Ended.Alike W r r') :
  Value.Alike W r.payload r'.payload
  := by
  obtain hv | hd := h
  · exact hv
  · exact hd.value

/-- An execution that was not settled is settled as it is told to. -/
theorem Machine.finished_state? (m : Machine) (outcome : Outcome) {id : Nat} (hid : 0 < id)
    (hsize : id ≤ m.heap.executions.size)
    (h : ∀ state, m.heap.state? id = some state → state.isTerminal = false) :
  (m.finished id outcome).heap.state? id = some (.settled outcome)
  := by
  have hlt : id - 1 < m.heap.executions.size := by omega
  have hstate : m.heap.state? id = some m.heap.executions[id - 1] := by
    rw [Heap.state?, if_neg (Nat.ne_of_gt hid)]
    exact Array.getElem?_eq_getElem hlt
  rw [Heap.state?, if_neg (Nat.ne_of_gt hid)]
  change (m.heap.executions.modify (id - 1) _)[id - 1]? = _
  rw [Array.getElem?_modify, if_pos rfl, Array.getElem?_eq_getElem hlt, Option.map_some,
    ExecutionState.change, h _ hstate]
  rfl

/-- Settling an execution leaves the others as they are. -/
theorem Machine.finished_state?_of_ne (m : Machine) (outcome : Outcome) {id own : Nat}
    (hown : 0 < own) (h : id ≠ own) :
  (m.finished own outcome).heap.state? id = m.heap.state? id
  := by
  rw [Heap.state?, Heap.state?]
  split
  · rfl
  · change (m.heap.executions.modify (own - 1) _)[id - 1]? = _
    rw [Array.getElem?_modify, if_neg (by omega)]

/-- What has happened when an observed coroutine has ended. -/
theorem Observed.delivered (h : Observed own W r m₁ m') (hown : 0 < own)
    (hp : m₁.stage.pending = []) :
  Delivered own W r m₁ m'
  := by
  obtain ⟨levels, context, hm, hr⟩ := h
  rename_i m' r'
  rw [hr.outcome_eq]
  have hpending := hm.stage.pending
  rw [hp, List.forall₂_nil_left_iff] at hpending
  constructor
  · exact hm.injective
  · exact hm.globals
  · exact hm.atoms
  · exact hm.out.symm
  · exact hm.journal.symm
  · exact hm.timers
  · exact hm.stage.requests
  · exact hpending
  · exact ⟨_, _, rfl, hr.payload, hm.stage.results⟩
  · apply Machine.finished_state? m' r.outcome hown
    · rw [← hm.executions]
      exact hm.ownBound
    · intro state hstate
      rw [← hm.heap.state?_eq] at hstate
      exact hm.ownState state hstate
  · intro id hid
    rw [hm.heap.state?_eq]
    exact m'.finished_state?_of_ne r.outcome hown hid

/-! ### The meaning of a coroutine -/

section meaning

variable {t t' : SymbolTable} {body code : Expr} {params : List Symbol} {env : Env}
  {last : Option (Context Value)}

/-- The scope of a body is the same for its names when the stage answers for `await`. -/
theorem Env.Alike.answering (h : Env.Alike W t.User env env) (id : Nat) :
  Env.Alike W t.User (env.answering id) env
  := by
  intro x hx
  rw [Env.answering, lookup_cons_of_ne hx.2]
  exact h x hx

/-- A coroutine does what the evaluator does with its body, and delivers the end of it
exactly once. -/
theorem coroutine_delivers_value_of_body (hm : m.Sound W) (hbody : body.InBody t.User false)
    (henv : Env.Alike W t.User env env)
    (hcompile : Coroutine.compile Table.default body t = .ok (.lambda none params code) t')
    (i id : Nat)
    (h : Direct .steady false (.tree body) (env.answering i) none m.started (r.map .value) last
      m₁) :
  body.Ends (env.answering i) m.started r m₁ ∧
  ∃ W' m', Delivered (m.heap.executions.size + 1) W' r m₁ m' ∧ Eventually fun c f =>
    (Instrument.rehearse (Value.call c) f (.closure id none params code env)).Gives m (.ok ()) m'
  := by
  have hlowered := h.within Manner.steady_within_lowered
  have hidle : m.started.Idle := ⟨⟨0, m.levels, rfl⟩, hm.pending⟩
  constructor
  · have hawait : ¬ t.User "await" := fun hx => hx.2 rfl
    have hends := Direct.ends hawait (h.within Manner.steady_within_evaluated) ⟨false, hbody⟩ i
      (lookup_cons_self "await" _ env)
    exact hends.ended
  · obtain ⟨W', m', hobserved, hends⟩ :=
      hlowered.rehearsed hm hbody (fun _ hx => hx.1) (henv.answering i) hcompile id
    exact ⟨W', m', hobserved.delivered (Nat.succ_pos _) (hlowered.idle hidle).pending, hends⟩

end meaning

/-! ### A body and work that waits -/

section waiting

/-- The machine on which `wake` is the continuation of a suspended call, after which `a` is
set to one. -/
def wakeful : Machine :=
  { Machine.empty with
    globals := [
      ("wake", .native (.awaitContinuation 0 .empty (.closure 1 none ["v"]
        (.call (.var "reset!") [.var "a", .literal (.scalar (.int 1))]) []))),
      ("a", .atom 0),
      ("deref", .native (.primitive (.atom .deref))),
      ("reset!", .native (.primitive (.atom .reset))),
      ("list", .native (.primitive (.sequence .list)))]
    heap := ⟨#[.int 0], #[]⟩
    nextId := 3 }

/-- The scope in which `op` is the operation of the stage. -/
def wakefulScope : Env := [("op", .native (.instrument 2 .operation))]

/-- The names of the trees below. -/
def wakefulNames : SymbolTable := ⟨#["wake", "x", "deref", "a", "op", "list"], 0⟩

/-- The contents of `a` before and after an awaited call. -/
def aroundAwait : Expr :=
  .bind [("x", .call (.var "deref") [.var "a"])]
    (.seq [.call (.var "await") [.var "op"],
      .call (.var "list") [.var "x", .call (.var "deref") [.var "a"]]])

/-- The same after a call that lets work wait. -/
def wakingBody : Expr :=
  .seq [.call (.var "wake") [.literal (.scalar (.int 0))], aroundAwait]

/-- The machine that observing a coroutine leaves, when there is enough fuel. -/
def rehearsed? (body : Expr) (t : SymbolTable) (env : Env) (fuel : Nat) (m : Machine) :
    Option Machine :=
  match Coroutine.compile Table.default body t with
  | .ok (.lambda none params code) _ =>
    match Instrument.rehearse (Value.call fuel) fuel (.closure m.nextId none params code env) m with
    | .ok _ m' => some m'
    | .error _ _ => none
  | _ => none

/-- The text of the value that a tree has, when there is enough fuel. -/
def Expr.textOn? (e : Expr) (env : Env) (fuel : Nat) (m : Machine) : Option String :=
  match e.eval (Value.call fuel) fuel env m with
  | .ok v m' => v.text? m'.heap
  | .error _ _ => none

/-- The world in which the numbers below `n` stand for themselves. -/
def World.upTo (n : Nat) : World := ⟨fun i j => i = j ∧ i < n, fun _ => False⟩

/-- The machine with a waking continuation is sound. -/
theorem wakeful_sound :
  wakeful.Sound (.upTo 3)
  := by
  have hid : ∀ i < 3, (World.upTo 3).pairs i i := fun i hi => ⟨rfl, hi⟩
  constructor
  · constructor
    · refine .cons (.mk ?_) (.cons (.mk (.atom 0)) (.cons (.mk (.primitive _))
        (.cons (.mk (.primitive _)) (.cons (.mk (.primitive _)) .nil))))
      apply Value.Alike.awaitContinuation (hid 0 (by decide)) (.mk .nil)
      exact .closure (hid 1 (by decide)) fun _ _ => .none
    · exact .cons (.scalar _) .nil
    · rfl
    · exact .mk .nil
    · exact .innermost .nil
    · rfl
    · rfl
    · rfl
    · exact .nil
    · rfl
    · rfl
    · rfl
    · exact ⟨fun _ => .ok (.scalar _), fun _ => rfl, .nil, .nil, .nil, .none, rfl⟩
    · rintro i j i' j' ⟨rfl, -⟩ ⟨rfl, -⟩
      rfl
    · rintro i j ⟨rfl, hi⟩
      exact ⟨hi, hi⟩
    · exact fun _ h => h.elim
    · exact Nat.zero_le _
    · exact fun _ h => by cases h
  · rfl

/-- The scope of the stage is alike to itself. -/
theorem wakefulScope_alike (S : Symbol → Prop) :
  Env.Alike (.upTo 3) S wakefulScope wakefulScope
  := by
  intro x _
  rw [wakefulScope, List.lookup_cons]
  split
  · exact .some (.instrument _ ⟨rfl, by decide⟩)
  · exact .none

/-- The body can stand in a coroutine. -/
theorem aroundAwait_inBody :
  aroundAwait.InBody wakefulNames.User false
  := by
  have hvar : ∀ x ∈ ["x", "deref", "a", "op", "list"],
      (Expr.var x).InBody wakefulNames.User false := by
    intro x hx
    have hU : ∀ x ∈ ["x", "deref", "a", "op", "list"], x ∈ wakefulNames.names ∧ x ≠ "await" := by
      simp [wakefulNames]
    exact .var (hU x hx)
  have hderef : (Expr.call (.var "deref") [.var "a"]).InBody wakefulNames.User false := by
    apply Expr.InBody.call (hvar _ (by decide))
    intro e he
    obtain rfl := List.mem_singleton.1 he
    exact hvar _ (by decide)
  have hawait : (Expr.call (.var "await") [.var "op"]).InBody wakefulNames.User false := by
    apply Expr.InBody.await
    intro e he
    obtain rfl := List.mem_singleton.1 he
    exact hvar _ (by decide)
  apply Expr.InBody.bind
  · intro b hb
    obtain rfl := List.mem_singleton.1 hb
    exact ⟨by simp [wakefulNames], by decide⟩
  · intro b hb
    obtain rfl := List.mem_singleton.1 hb
    exact hderef
  · apply Expr.InBody.seq
    · intro e he
      obtain rfl := List.mem_singleton.1 he
      exact hawait
    · rintro e ⟨⟩
      apply Expr.InBody.call (hvar _ (by decide))
      intro e he
      rcases List.mem_cons.1 he with rfl | he
      · exact hvar _ (by decide)
      · obtain rfl := List.mem_singleton.1 he
        exact hderef

/-- A tree ends as it does with some amount of fuel. -/
theorem Expr.ends_of_gives {e : Expr} {env : Env} (fuel : Nat)
    (h : (e.tail (Value.call fuel) fuel env).Gives m (r.map .value) m₁) :
  e.Ends env m r m₁
  := ⟨fuel, fun _ _ hc hf => Expr.tail_below (Value.call_below hc) hf env e _ _ _ h⟩

/-- The body has to be lowered, since its sequence awaits a call. -/
theorem aroundAwait_needs :
  aroundAwait.Needs false
  := Expr.needs_of_child List.mem_concat_self (by decide_cbv)

/-- The body of the example is evaluated steadily. -/
theorem aroundAwait_direct :
  ∃ last m₁, Direct .steady false (.tree aroundAwait) (wakefulScope.answering 3) none
    wakeful.started ((Except.ok (.list [.int 0, .int 0])).map .value) last m₁
  := by
  have hderef : (Expr.call (.var "deref") [.var "a"]).Ends (wakefulScope.answering 3)
      wakeful.started (.ok (.int 0)) wakeful.started := Expr.ends_of_gives 5 rfl
  have hx : Direct .steady false (.bindings [("x", .call (.var "deref") [.var "a"])])
      (wakefulScope.answering 3) none wakeful.started
      (.ok (.scope (("x", .int 0) :: wakefulScope.answering 3))) none wakeful.started :=
    .bindingsCons (.plain (r := .ok _) (by decide_cbv) hderef ⟨rfl, rfl⟩) .bindingsNil
  have hop : Direct .steady false (.trees [.var "op"])
      (("x", .int 0) :: wakefulScope.answering 3) none wakeful.started
      (.ok (.values [.native (.instrument 2 .operation)])) none wakeful.started :=
    .treesCons (.plain (r := .ok _) (by decide_cbv) (Expr.ends_of_gives 5 rfl) ⟨rfl, rfl⟩)
      .treesNil
  have hawait := Direct.await (r := .ok .nil) (by decide_cbv) hop rfl
  exact ⟨_, _, .bind aroundAwait_needs hx (.seq (by decide_cbv)
    (.statementsCons (List.cons_ne_nil _ _) hawait (.statementsLast
      (.plain (r := .ok _) (by decide_cbv) (Expr.ends_of_gives 9 rfl) ⟨rfl, rfl⟩))))⟩

/-- Whether a body can be compiled to a function literal. -/
def compiles (body : Expr) (t : SymbolTable) : Bool :=
  match Coroutine.compile Table.default body t with
  | .ok (.lambda none _ _) _ => true
  | _ => false

/-- What a body that can be compiled is compiled to. -/
theorem exists_compile {body : Expr} {t : SymbolTable} (h : compiles body t = true) :
  ∃ params code t', Coroutine.compile Table.default body t = .ok (.lambda none params code) t'
  := by
  unfold compiles at h
  split at h
  · rename_i hcompile
    exact ⟨_, _, _, hcompile⟩
  · cases h

/-- The coroutine of the example delivers what its body gives. -/
theorem aroundAwait_coroutine_delivers :
  ∃ params code t' m₁,
    Coroutine.compile Table.default aroundAwait wakefulNames = .ok (.lambda none params code) t' ∧
    aroundAwait.Ends (wakefulScope.answering 3) wakeful.started (.ok (.list [.int 0, .int 0])) m₁ ∧
    ∃ W' m', Delivered 1 W' (.ok (.list [.int 0, .int 0])) m₁ m' ∧ Eventually fun c f =>
      (Instrument.rehearse (Value.call c) f (.closure 3 none params code wakefulScope)).Gives
        wakeful (.ok ()) m'
  := by
  have hok : compiles aroundAwait wakefulNames = true := by decide +kernel
  obtain ⟨params, code, t', hcompile⟩ := exists_compile hok
  obtain ⟨last, m₁, hdirect⟩ := aroundAwait_direct
  exact ⟨params, code, t', m₁, hcompile, coroutine_delivers_value_of_body wakeful_sound
    aroundAwait_inBody (wakefulScope_alike _) hcompile 3 3 hdirect⟩

/-- What observing a coroutine leaves is left by the code of its body. -/
theorem rehearsed?_eq_some {body : Expr} {t : SymbolTable} {env : Env} {fuel : Nat}
    (h : rehearsed? body t env fuel m = some m') :
  ∃ params code t', Coroutine.compile Table.default body t = .ok (.lambda none params code) t' ∧
    (Instrument.rehearse (Value.call fuel) fuel (.closure m.nextId none params code env)).Gives
      m (.ok ()) m'
  := by
  unfold rehearsed? at h
  split at h
  · rename_i params code t' hcompile
    refine ⟨params, code, t', hcompile, ?_⟩
    split at h
    · rename_i u m₂ hok
      cases h
      exact hok
    · cases h
  · cases h

/-- Whether the only result is the list of zero and one. -/
def areZeroAndOne : List (Outcome × Value) → Bool
  | [(.completed, .list [.scalar (.int 0), .scalar (.int 1)])] => true
  | _ => false

/-- What the results are of which the list of zero and one is the only one. -/
theorem eq_of_areZeroAndOne {results : List (Outcome × Value)} (h : areZeroAndOne results = true) :
  results = [(.completed, .list [.int 0, .int 1])]
  := by
  unfold areZeroAndOne at h
  split at h
  · rfl
  · cases h

/-- A call of a body that lets work wait does that work at once in a direct run, but only
after the next awaited call in a coroutine. -/
theorem wakingBody_coroutine_differs :
  (∃ m₁, wakingBody.Ends (wakefulScope.answering 3) wakeful (.ok (.list [.int 1, .int 1])) m₁) ∧
  ∃ params code t' m',
    Coroutine.compile Table.default wakingBody wakefulNames = .ok (.lambda none params code) t' ∧
    (Instrument.rehearse (Value.call 20) 20 (.closure 3 none params code wakefulScope)).Gives
      wakeful (.ok ()) m' ∧
    m'.stage.results = [(.completed, .list [.int 0, .int 1])]
  := by
  constructor
  · exact ⟨_, Expr.ends_of_gives 20 rfl⟩
  · have hcheck : (rehearsed? wakingBody wakefulNames wakefulScope 20 wakeful).map
        (areZeroAndOne ·.stage.results) = some true := by decide +kernel
    obtain ⟨m', hrun, hresults⟩ := Option.map_eq_some_iff.1 hcheck
    obtain ⟨params, code, t', hcompile, hends⟩ := rehearsed?_eq_some hrun
    exact ⟨params, code, t', m', hcompile, hends, eq_of_areZeroAndOne hresults⟩

end waiting

end Skein
