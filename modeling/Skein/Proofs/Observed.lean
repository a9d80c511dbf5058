import Skein.Proofs.Rehearsal
import Skein.Proofs.Simulation.Body

/-!
# Observed coroutines

A coroutine that is started, with the stage as its operation and as the receiver of its
results, does what a run of its body in its manner does: the operation is asked for the
same things in the same order, the program leaves alike definitions, atoms and output, and
exactly one result is received, which is the end of the direct run.
-/

namespace Skein

open Coroutine Trampoline

/-- The kind of result that an end is. -/
def Ended.outcome : Ended Value → Outcome
  | .ok _ => .completed
  | .error _ => .failed

/-- The value that is delivered for an end. -/
def Ended.payload : Ended Value → Value
  | .ok v => v
  | .error d => .condition d

/-- The callback that an end is delivered to. -/
def Ended.callback (resolve reject : Value) : Ended Value → Value
  | .ok _ => resolve
  | .error _ => reject

namespace Machine

/-- The machine in which the body of a coroutine that is started is evaluated: a new
execution drives it, in a level of its own. -/
def started (m : Machine) : Machine :=
  { m with
    heap := { m.heap with executions := m.heap.executions.push .running }
    context := m.context.driving (m.heap.executions.size + 1)
    levels := ⟨[], 0⟩ :: m.levels }

/-- The number of the execution that is started next. -/
def nextExecution (m : Machine) : Nat := m.heap.executions.size + 1

/-- The continuation for the value of a coroutine that is started. -/
def successFor (m : Machine) (resolve : Value) : Value :=
  .native (.settle m.nextId m.nextExecution .completed resolve)

/-- The continuation for the error of a coroutine that is started. -/
def failureFor (m : Machine) (reject : Value) : Value :=
  .native (.settle (m.nextId + 1) m.nextExecution .failed reject)

/-- The machine on which a coroutine that is started is called. -/
def launched (m : Machine) : Machine := { m.started with nextId := m.nextId + 2 }

/-- The machine in which an execution has been settled. -/
def finished (m : Machine) (id : Nat) (outcome : Outcome) : Machine :=
  { m with
    heap := { m.heap with
      executions := m.heap.executions.modify (id - 1) (·.change (.settled outcome)) } }

/-- The machine in which a result has been received. -/
def receiving (m : Machine) (outcome : Outcome) (v : Value) : Machine :=
  { m with stage := { m.stage with results := (outcome, v) :: m.stage.results } }

/-- A machine on which programs run without a limit of steps, where every number in it has
been given out, and which is not in the middle of an observation. -/
structure Sound (W : World) (m : Machine) : Prop where
  alike : Machine.Alike 0 0 W { m with levels := [⟨[], 0⟩] } { m with levels := [⟨[], 0⟩] }
  pending : m.stage.pending = []

end Machine

variable {U : Symbol → Prop} {W : World} {m m₁ m' : Machine} {r : Ended Value}

/-- The machine after an observed coroutine, where the direct run of its body ended with
`r` on `m₁`: the execution is settled and the result is received. -/
inductive Observed (own : Nat) (W : World) (r : Ended Value) (m₁ : Machine) : Machine → Prop
  where
  | mk {m' : Machine} {r' : Ended Value} (levels : List Level) (context : Context Value)
    (hm : Machine.Alike own 0 W m₁ m') (hr : Ended.Alike W r r') :
    Observed own W r m₁
      { (m'.finished own r'.outcome).receiving r'.outcome r'.payload with levels, context }

/-- The machine after the body of a coroutine: the execution is settled and the result waits in
the level for its callback. -/
inductive Settles (own : Nat) (r : Ended Value) (callback : Value) (m₁ : Machine) :
    Machine → Prop where
  | mk {W : World} {m' : Machine} {r' : Ended Value} {steps : Nat} {levels : List Level}
    (hm : Machine.Alike own 0 W m₁ m') (hr : Ended.Alike W r r') :
    Settles own r callback m₁
      { m'.finished own r'.outcome with
        levels := ⟨[.delivery m'.context callback r'.payload], steps⟩ :: levels }

/-! ### Results -/

/-- A coroutine's continuation settles its execution, and in a level the result waits. -/
theorem callEnds_settle (id own : Nat) (outcome : Outcome) (target v : Value)
    {queue : List Work} {steps : Nat} {levels : List Level}
    (hl : m.levels = ⟨queue, steps⟩ :: levels) :
  (Value.native (.settle id own outcome target)).CallEnds [v] m (.ok .nil)
    { m.finished own outcome with
      levels := ⟨queue ++ [.delivery m.context target v], steps⟩ :: levels }
  := by
  apply Expr.callEnds_native
  apply Eventually.of_forall
  intro c _
  have hfinish : (Run.finish own outcome).Gives m
      (.ok (!((m.heap.state? own).getD .running).isTerminal)) (m.finished own outcome) := rfl
  have henqueue := (m.finished own outcome).gives_enqueue hl (.delivery m.context target v)
  have harity : (Run.checkArity (.exactly 1) outcome.continuationName [v]).Gives m (.ok ()) m :=
    rfl
  apply harity.bind
  apply hfinish.bind
  apply (m.finished own outcome).gives_capture.bind
  apply henqueue.bind
  exact Run.gives_pure _ _

/-- The result that waits is received by the stage. -/
theorem Settles.clears {own receiver : Nat}
    (h : Settles own r (.native (.instrument receiver (.receive r.outcome))) m₁ m)
    (hidle : m₁.Idle) (c : Context Value) :
  ∃ m', { m with context := c }.Clears none m' ∧ m'.stage.pending = [] ∧
    ∀ levels context, ∃ W, Observed own W r m₁ { m' with levels, context }
  := by
  obtain ⟨hm, hr⟩ := h
  rename_i W m' r' steps levels
  have hperform : Eventually fun n _ => (perform (Value.call n) (.delivery m'.context
      (.native (.instrument receiver (.receive r.outcome))) r'.payload)).Gives
      { m'.finished own r'.outcome with levels := ⟨[], steps⟩ :: levels, context := c }
      (.ok .nil)
      { (m'.finished own r'.outcome).receiving r.outcome r'.payload with
        levels := ⟨[], steps⟩ :: levels, context := c } := by
    refine ⟨1, fun n _ hn _ => ?_⟩
    obtain ⟨n, rfl⟩ := Nat.exists_eq_add_of_le' hn
    rfl
  refine ⟨_, .work rfl hm.limit' hperform (.value rfl _) (.empty rfl), (hm.idle hidle).pending,
    fun levels context => ⟨W, ?_⟩⟩
  have houtcome : r.outcome = r'.outcome := by cases hr <;> rfl
  rw [houtcome]
  exact .mk levels context hm hr

/-- The continuations that a coroutine is started with. -/
def Exits.settling (own success failure : Nat) (resolve reject : Value) : Exits where
  success := .native (.settle success own .completed resolve)
  failure := .native (.settle failure own .failed reject)
  head := .nil
  arity := 0

/-- The continuations of a coroutine go on from the end of its body. -/
theorem Exits.Take.settling {own : Nat} (hidle : m₁.Idle) (i j : Nat) (resolve reject : Value)
    (last : Option (Context Value)) :
  (Exits.settling own i j resolve reject).Take own
    (fun _ _ => Settles own r (r.callback resolve reject) m₁) W (r.map .value) last m₁
  := by
  cases r with
  | ok v =>
    intro W' v' wrap m' hW hv hlast hm
    obtain ⟨⟨steps, levels, hl⟩, -⟩ := hm.idle hidle
    exact ⟨.nil, _, callEnds_settle i own .completed _ v' hl, .settled rfl (.mk hm (.ok hv))⟩
  | error d =>
    intro W' v' wrap m' hW hv hlast hm
    obtain ⟨⟨steps, levels, hl⟩, -⟩ := hm.idle hidle
    cases hv with | @condition kind message data data' hdata
    have hr : Ended.Alike W' (.error ⟨kind, message, data⟩) (.error ⟨kind, message, data'⟩) :=
      .error (.mk hdata)
    exact ⟨.nil, _, callEnds_settle j own .failed _ _ hl, .settled rfl (.mk hm hr)⟩

/-! ### The start -/

/-- The scope of a whole body and that of its code fit together. -/
theorem fits_ofContinuations {t t₁ t₂ : SymbolTable} {success failure : Symbol}
    {env env' : Env} {x : Exits} (hknown : ∀ y, U y → y ∈ t.names)
    (henv : Env.Alike W U env env') (hk : fresh "k" t = .ok success t₁)
    (hf : fresh "f" t₁ = .ok failure t₂) :
  Fits U W t₂ (.ofContinuations success failure) env
    ((failure, x.failure) :: (success, x.success) :: env') x
  := by
  obtain ⟨hk, hk', ht⟩ := Compiling.fresh_spec hk
  obtain ⟨hf, hf', ht'⟩ := Compiling.fresh_spec hf
  have hku : ¬ U success := fun h => hk (hknown success h)
  have hfu : ¬ U failure := fun h => hf (ht failure (hknown failure h))
  have hne : success ≠ failure := by
    rintro rfl
    exact hf hk'
  have hlookup : List.lookup success ((failure, x.failure) :: (success, x.success) :: env') =
      some x.success := by
    rw [lookup_cons_of_ne hne, lookup_cons_self]
  exact {
    known := fun y hy => ht' y (ht y (hknown y hy))
    alike := (henv.fresh hku x.success).fresh hfu x.failure
    success := ⟨ht' success hk', hku, hlookup⟩
    failure := ⟨hf', hfu, lookup_cons_self failure x.failure _⟩
    head := fun h hh => by cases hh
    bound := by
      intro y hy
      rcases List.mem_cons.1 hy with rfl | hy
      · rw [lookup_cons_self]
        rfl
      · obtain rfl := List.mem_singleton.1 hy
        rw [hlookup]
        rfl }

/-- The machine on which a coroutine is started is alike to the one on which its body is
evaluated directly. -/
theorem Machine.Sound.started (h : m.Sound W) (k : Nat) :
  Machine.Alike (m.heap.executions.size + 1) 0 W m.started
    { m.started with nextId := m.nextId + k }
  := by
  have halike : Machine.Alike (m.heap.executions.size + 1) 0 W m.started m.started :=
    { h.alike with
      executions := rfl
      context := h.alike.context.driving _
      levels := .innermost .nil
      settled := by
        intro id hid
        obtain ⟨h0, hle, -⟩ := h.alike.settled id hid
        change _ ∧ id ≤ (m.heap.executions.push _).size ∧ _
        rw [Array.size_push]
        exact ⟨h0, Nat.le_succ_of_le hle, Nat.ne_of_lt (Nat.lt_succ_of_le hle)⟩
      ownBound := by
        apply Nat.le_of_eq
        exact (Array.size_push _).symm
      ownState := by
        intro s hs
        have hstate : m.started.heap.state? (m.heap.executions.size + 1) = some .running := by
          rw [Heap.state?, if_neg (Nat.succ_ne_zero _), Nat.add_sub_cancel]
          exact Array.getElem?_push_size
        rw [hstate] at hs
        cases hs
        rfl }
  exact halike.skip k

/-- A condition that a coroutine raises before anything is suspended goes to its second
continuation. -/
theorem Expr.Reaches.starts {own : Nat} {G : Aim} {params : List Symbol}
    {code : Expr} {env : Env} {k f : Value} {s : Ended Yield} {last : Option (Context Value)}
    (hreaches : code.Reaches own G W none (env.extend params [k, f]) m s last m₁) (id : Nat)
    (hparams : params.length = 2)
    (htake : ∀ d, s = .error d → f.Accepts own G W (.condition d) last m₁) :
  ∃ u m', Rest G none u m' ∧ Eventually fun c _ =>
    (startWith (Value.call c) own (.closure id none params code env) k f).Gives m (.ok u) m'
  := by
  have hlen : [k, f].length = params.length := hparams.symm
  cases hreaches with
  | completes h =>
    obtain ⟨u, m', hends, hrest⟩ := h
    have hcall : (Value.closure id none params code env).CallEnds [k, f] m (.ok u) m' :=
      Expr.callEnds_closure hlen hends
    refine ⟨u, m', hrest, hcall.mono ?_⟩
    intro c _ hcall
    apply hcall.attempt.bind
    exact Run.gives_pure _ _
  | @escapes W' d d' m₂ hs hW hlast hd hm hends =>
    obtain ⟨u, m', hdeliver, hrest⟩ := htake d hs hW hd.value hlast hm
    have hcall : (Value.closure id none params code env).CallEnds [k, f] m (.error d') m₂ :=
      Expr.callEnds_closure hlen hends
    refine ⟨u, m', hrest, (hcall.and hdeliver).mono ?_⟩
    rintro c _ ⟨hcall, hdeliver⟩
    have hstate : (Run.executionState own).Gives m₂ (.ok ((m₂.heap.state? own).getD .running))
        m₂ := rfl
    apply hcall.attempt.bind
    apply hstate.bind
    rw [if_neg]
    · exact hdeliver
    · rw [← hm.heap.state?_eq, Bool.not_eq_true]
      cases hown : m₁.heap.state? own with
      | none => rfl
      | some state => exact hm.ownState state hown

/-- The level of a start is closed, and the context is in force again that was before. -/
def Machine.closing (m m' : Machine) : Machine :=
  { m' with levels := m'.levels.tail, context := m.context }

/-- Starting a coroutine comes to what its level comes to. -/
theorem start_ends {coroutine resolve reject : Value} {s : Ended Value}
    {late : Option (Condition Value)}
    (hstart : Eventually fun c f => (startWith (Value.call c) m.nextExecution coroutine
      (m.successFor resolve) (m.failureFor reject) >>= force (Value.call c) f).Gives m.launched
      s m₁)
    (hlate : m₁.Clears late m₂) :
  Eventually fun c f => (Trampoline.start (Value.call c) f coroutine resolve reject).Gives m
    ((settled s late).map fun _ => m.nextExecution) (m.closing m₂)
  := by
  let began : Machine := { m with
    heap := { m.heap with executions := m.heap.executions.push .running }
    nextId := m.nextId + 2 }
  have hbounce := bounce_gives (m := { began with context := m.context.driving m.nextExecution })
    hstart hlate
  apply hbounce.mono
  intro c f hbounce
  have hentering := Run.gives_entering_iff.2 ⟨_, hbounce, rfl⟩
  cases hr : settled s late with
  | ok w =>
    rw [hr] at hentering
    exact hentering.bind (k := fun _ => (pure m.nextExecution : Run Nat)) (Run.gives_pure _ _)
  | error d =>
    rw [hr] at hentering
    exact hentering.bind_error (k := fun _ => (pure m.nextExecution : Run Nat))

/-- What follows the start of a coroutine follows the level of the start. -/
theorem start_follows {coroutine resolve reject u w : Value}
    {late : Option (Condition Value)} {s : Ended Unit} {m₃ : Machine}
    (hstart : Eventually fun c _ => (startWith (Value.call c) m.nextExecution coroutine
      (m.successFor resolve) (m.failureFor reject)).Gives m.launched (.ok u) m₁)
    (hforces : u.Forces m₁ w m₂) (hclears : m₂.Clears late m₃)
    (hfollow : (m.closing m₃).Follows late s m') :
  Eventually fun c f => (do
    let _ ← Trampoline.start (Value.call c) f coroutine resolve reject
    Instrument.deliverAll (Value.call c) f).Gives m s m'
  := by
  have hstarts := start_ends (s := .ok w)
    ((hstart.and hforces).mono fun _ _ ⟨hstart, hforces⟩ => hstart.bind hforces) hclears
  apply (hstarts.and hfollow).mono
  rintro c f ⟨hstarts, hfollow⟩
  cases late with
  | none => exact hstarts.bind hfollow
  | some d =>
    obtain ⟨rfl, rfl⟩ := hfollow.unique (Run.gives_raise d _)
    exact hstarts.bind_error

/-! ### The whole run -/

/-- What a compiled body is: the function of two continuations that hands the body over to
them. -/
theorem compile_spec {t t' : SymbolTable} {body e : Expr}
    (h : Coroutine.compile Table.default body t = .ok e t') :
  ∃ success failure t₁ t₂ code, e = .lambda none [success, failure] code ∧
    fresh "k" t = .ok success t₁ ∧ fresh "f" t₁ = .ok failure t₂ ∧
    handOver Table.default (.ofContinuations success failure) body t₂ = .ok code t'
  := by
  obtain ⟨success, t₁, hk, h⟩ := Compiling.bind_eq_ok_iff.1 h
  obtain ⟨failure, t₂, hf, h⟩ := Compiling.bind_eq_ok_iff.1 h
  obtain ⟨code, t₃, hcode, h⟩ := Compiling.bind_eq_ok_iff.1 h
  obtain ⟨rfl, rfl⟩ := Compiling.pure_eq_ok_iff.1 h
  exact ⟨success, failure, t₁, t₂, code, rfl, hk, hf, hcode⟩

/-- A coroutine that is started calls its body, and the run that goes on from there comes to the
end of a run of the body. -/
theorem Direct.starts {t t' : SymbolTable} {body code : Expr} {params : List Symbol}
    {env env' : Env} {last : Option (Context Value)} (hm : m.Sound W) (hbody : body.InBody U false)
    (hknown : ∀ y, U y → y ∈ t.names) (henv : Env.Alike W U env env')
    (hcompile : Coroutine.compile Table.default body t = .ok (.lambda none params code) t')
    (h : Direct .lowered false (.tree body) env none m.started (r.map .value) last m₁)
    (id k i j : Nat) (resolve reject : Value) :
  ∃ u m₂, Rest (fun _ _ => Settles m.nextExecution r (r.callback resolve reject) m₁) none u m₂ ∧
    Eventually fun c _ => (startWith (Value.call c) m.nextExecution
      (.closure id none params code env') (.native (.settle i m.nextExecution .completed resolve))
      (.native (.settle j m.nextExecution .failed reject))).Gives
      { m.started with nextId := m.nextId + k } (.ok u) m₂
  := by
  obtain ⟨success, failure, t₁, t₂, code, hlambda, hk, hf, hcode⟩ := compile_spec hcompile
  cases hlambda
  have hidle : m.started.Idle := ⟨⟨0, m.levels, rfl⟩, hm.pending⟩
  let x := Exits.settling m.nextExecution i j resolve reject
  have htake : x.Take m.nextExecution
      (fun _ _ => Settles m.nextExecution r (r.callback resolve reject) m₁) W (r.map .value) last
      m₁ :=
    .settling (h.idle hidle) i j resolve reject last
  have hreaches : code.Reaches m.nextExecution
      (fun _ _ => Settles m.nextExecution r (r.callback resolve reject) m₁) W none
      (env'.extend [success, failure] [x.success, x.failure])
      { m.started with nextId := m.nextId + k } (r.map .value) last m₁ :=
    h.followed ⟨false, hbody⟩ (.lowered hidle) (s := .ofContinuations success failure) rfl
      (fits_ofContinuations hknown henv hk hf) (hm.started k) .none htake hcode
  exact hreaches.starts id rfl htake.error

/-- A coroutine that is observed is started with the callbacks of the stage. -/
theorem rehearse_eq (call : Call) (fuel : Nat) (coroutine : Value) (m : Machine) :
  Instrument.rehearse call fuel coroutine m = (do
    let _ ← Trampoline.start call fuel coroutine
      (.native (.instrument m.nextId (.receive .completed)))
      (.native (.instrument (m.nextId + 1) (.receive .failed)))
    Instrument.deliverAll call fuel : Run Unit) { m with nextId := m.nextId + 2 }
  := rfl

/-- A coroutine that is observed ends, and what has happened is what happens in a run of
its body. -/
theorem Direct.rehearsed {t t' : SymbolTable} {body code : Expr} {params : List Symbol}
    {env env' : Env} {last : Option (Context Value)} (hm : m.Sound W) (hbody : body.InBody U false)
    (hknown : ∀ y, U y → y ∈ t.names) (henv : Env.Alike W U env env')
    (hcompile : Coroutine.compile Table.default body t = .ok (.lambda none params code) t')
    (h : Direct .lowered false (.tree body) env none m.started (r.map .value) last m₁) (id : Nat) :
  ∃ W' m', Observed (m.heap.executions.size + 1) W' r m₁ m' ∧ Eventually fun c f =>
    (Instrument.rehearse (Value.call c) f (.closure id none params code env')).Gives m (.ok ()) m'
  := by
  have hidle : m.started.Idle := ⟨⟨0, m.levels, rfl⟩, hm.pending⟩
  let began : Machine := { m with nextId := m.nextId + 2 }
  obtain ⟨u, m₂, hrest, hstart⟩ := h.starts hm hbody hknown henv hcompile id 4 (m.nextId + 2)
    (m.nextId + 3) (.native (.instrument m.nextId (.receive .completed)))
    (.native (.instrument (m.nextId + 1) (.receive .failed)))
  obtain ⟨-, -, m₃, c, hsettles, harrives⟩ :=
    hrest.arrives .none began.closing fun m' => ⟨_, _, rfl⟩
  have hreceived : ∃ m₄, { m₃ with context := c }.Clears none m₄ ∧ m₄.stage.pending = [] ∧
      ∀ levels context, ∃ W, Observed m.nextExecution W r m₁ { m₄ with levels, context } := by
    cases r with
    | ok v => exact hsettles.clears (h.idle hidle) c
    | error d => exact hsettles.clears (h.idle hidle) c
  obtain ⟨m₄, hclears, hp, hobserved⟩ := hreceived
  obtain ⟨w, m₅, late, m₆, levels, context, hforces, hclears, hfollow⟩ := harrives none m₄ hclears
  obtain ⟨W', hobserved⟩ := hobserved levels context
  have hlaunched : { m.started with nextId := m.nextId + 4 } = began.launched := rfl
  rw [hlaunched] at hstart
  have hends := start_follows (m := began) hstart hforces hclears (hfollow _ _ (.nothing hp))
  refine ⟨W', _, hobserved, hends.mono fun c f hends => ?_⟩
  unfold Run.Gives
  rw [rehearse_eq]
  exact hends

end Skein
