import Skein.Proofs.Agree.Eval
import Skein.Proofs.DirectRun

/-!
# Runs with suspensions

How a run goes on once a step of it has come to a value: a thunk is taken as the next
step; otherwise the only work that waits in the level is done, or the only delivery that
was left for later is made outside of it, until there is nothing left to do.

The steps that come of a suspended call run in the context of the suspension, which wraps
the thunks that they give.  The first step of a run is not wrapped.
-/

namespace Skein

/-- The heap in which the execution of a context has changed its state. -/
def Heap.changed (h : Heap) (c : Context Value) (next : ExecutionState) : Heap :=
  match c.execution with
  | some id => { h with executions := h.executions.modify (id - 1) (·.change next) }
  | none => h

/-- A change of state leaves the atoms as they are. -/
@[simp] theorem Heap.changed_atoms (h : Heap) (c : Context Value) (next : ExecutionState) :
  (h.changed c next).atoms = h.atoms
  := by
  unfold Heap.changed
  split <;> rfl

/-- Of two changes of state the second one counts, unless the first one settles. -/
theorem Heap.changed_changed (h : Heap) (c : Context Value) (next : ExecutionState)
    {state : ExecutionState} (hstate : state.isTerminal = false) :
  (h.changed c state).changed c next = h.changed c next
  := by
  unfold Heap.changed
  cases c.execution with
  | none => rfl
  | some id =>
    have hchange : (h.executions.modify (id - 1) (·.change state)).modify (id - 1)
        (·.change next) = h.executions.modify (id - 1) (·.change next) := by
      apply Array.ext_getElem?
      intro i
      simp only [Array.getElem?_modify]
      split
      · rw [Option.map_map]
        congr 1
        funext s
        by_cases hs : s.isTerminal = true
        · simp only [Function.comp, ExecutionState.change, if_pos hs]
        · simp only [Function.comp, ExecutionState.change, if_neg hs, hstate,
            Bool.false_eq_true, if_false]
      · rfl
    dsimp only
    rw [hchange]

namespace Machine

/-- The machine in which the execution of a context has changed its state. -/
def changed (m : Machine) (c : Context Value) (next : ExecutionState) : Machine :=
  { m with heap := m.heap.changed c next }

/-- The machine in which the thunk is taken that a wrapped step came to. -/
def reenter (m : Machine) : Option (Context Value) → Machine
  | none => m
  | some snapshot => { m with nextId := m.nextId + 2, context := snapshot }

/-- The machine in which a continuation goes on after a suspension. -/
def goOn (m : Machine) (snapshot : Context Value) : Machine :=
  { m with context := snapshot }.changed snapshot .running

variable (m : Machine) (c : Context Value) (next : ExecutionState)

/-- The context is the one of the machine. -/
theorem gives_capture :
  Run.capture.Gives m (.ok m.context) m
  := rfl

/-- Work waits in the innermost level. -/
theorem gives_enqueue {queue : List Work} {steps : Nat} {levels : List Level}
    (hl : m.levels = ⟨queue, steps⟩ :: levels) (work : Work) :
  (Run.enqueue work).Gives m (.ok true) { m with levels := ⟨queue ++ [work], steps⟩ :: levels }
  := by
  obtain ⟨_, _, _, _, _⟩ := m
  cases hl
  rfl

/-- The state of the execution of a context changes. -/
theorem gives_changeStateIn :
  (Run.changeStateIn c next).Gives m (.ok ()) (m.changed c next)
  := by
  unfold Run.changeStateIn changed Heap.changed
  cases c.execution <;> rfl

end Machine

/-! ### Alike machines -/

namespace Machine.Alike

variable {own n : Nat} {W : World} {m m' : Machine}

/-- Machines stay alike when executions of alike contexts change to the same state. -/
theorem changed (h : Machine.Alike own n W m m') {c c' : Context Value}
    (hc : Context.Alike (Value.Alike W) c c') {next : ExecutionState}
    (hnext : next.isTerminal = false) :
  Machine.Alike own n W (m.changed c next) (m'.changed c' next)
  := by
  unfold Machine.changed Heap.changed
  rw [hc.execution]
  cases c'.execution with
  | none => exact h
  | some id =>
    refine { h with executions := ?_, settled := ?_, ownBound := ?_, ownState := ?_ }
    · dsimp only
      rw [h.executions]
    · dsimp only
      rw [Array.size_modify]
      exact h.settled
    · dsimp only
      rw [Array.size_modify]
      exact h.ownBound
    · intro s hs
      rw [Heap.state?] at hs
      split at hs
      · cases hs
      · rename_i h0
        rw [Array.getElem?_modify] at hs
        have hstate : ∀ t, m.heap.executions[own - 1]? = some t → t.isTerminal = false := by
          intro t ht
          apply h.ownState t
          rw [Heap.state?, if_neg h0]
          exact ht
        split at hs
        · obtain ⟨t, ht, rfl⟩ := Option.map_eq_some_iff.1 hs
          rw [ExecutionState.change, hstate t ht]
          exact hnext
        · exact hstate s hs

/-- Machines stay alike when the second one gives out more numbers. -/
theorem skip (h : Machine.Alike own n W m m') (k : Nat) :
  Machine.Alike own n W m { m' with nextId := m'.nextId + k }
  := by
  refine { h with fresh := ?_ }
  intro i j hij
  obtain ⟨hi, hj⟩ := h.fresh i j hij
  exact ⟨hi, Nat.lt_add_right k hj⟩

/-- Machines stay alike in alike contexts. -/
theorem inContext (h : Machine.Alike own n W m m') {c c' : Context Value}
    (hc : Context.Alike (Value.Alike W) c c') :
  Machine.Alike own n W { m with context := c } { m' with context := c' }
  := { h with context := hc }

end Machine.Alike

/-! ### Steps -/

/-- A continuation that an operation may call later with an argument: what it continues,
and in which context. -/
inductive Resumes : (target arg : Value) → (snapshot : Context Value) → (k : Value) → Prop where
  | value {id : Nat} {snapshot : Context Value} {k arg : Value} :
    Resumes (.native (.awaitContinuation id snapshot k)) arg snapshot k
  | error {id : Nat} {snapshot : Context Value} {k : Value} {d : Condition Value} :
    Resumes (.native (.awaitFailure id snapshot k)) (.condition d) snapshot k

/-- What is to be shown of the context that wraps the last step of a run, of the value that the
step comes to and of the machine that it leaves. -/
abbrev Aim := Option (Context Value) → Value → Machine → Prop

/-- A step that is wrapped in a context has come to a value, and the run that goes on from
there has an end that `G` is about. -/
inductive Rest (G : Aim) : Option (Context Value) → Value → Machine → Prop where
  /-- A thunk is taken. -/
  | again {wrap : Option (Context Value)} {id : Nat} {f u : Value} {m m' : Machine}
    (hlimit : m.limit = none) (h : f.CallEnds [] (m.reenter wrap) (.ok u) m')
    (hr : Rest G wrap u m') :
    Rest G wrap (.thunk id f) m
  /-- The work that waits in the level is done. -/
  | resumed {wrap : Option (Context Value)} {v k arg u : Value} {snapshot : Context Value}
    {steps : Nat} {levels : List Level} {m m' : Machine} (hlimit : m.limit = none)
    (hv : v.isThunk = false) (hl : m.levels = ⟨[.resumption snapshot k arg], steps⟩ :: levels)
    (hp : m.stage.pending = [])
    (h : k.CallEnds [arg] ({ m with levels := ⟨[], steps⟩ :: levels }.goOn snapshot) (.ok u) m')
    (hr : Rest G (some snapshot) u m') : Rest G wrap v m
  /-- The delivery that was left for later is made outside of the level. -/
  | late {wrap : Option (Context Value)} {v target k arg u : Value} {snapshot : Context Value}
    {steps : Nat} {levels : List Level} {m m' : Machine} (hv : v.isThunk = false)
    (hl : m.levels = ⟨[], steps⟩ :: levels) (hp : m.stage.pending = [(target, arg)])
    (ht : Resumes target arg snapshot k)
    (h : k.CallEnds [arg]
      ({ m with levels := [⟨[], 0⟩], stage := { m.stage with pending := [] } }.goOn snapshot)
      (.ok u) m')
    (hr : Rest G (some snapshot) u m') : Rest G wrap v m
  /-- Nothing is left to do for the body. -/
  | settled {wrap : Option (Context Value)} {v : Value} {m : Machine} (hv : v.isThunk = false)
    (hG : G wrap v m) : Rest G wrap v m

/-- Evaluating code gives a value, and the run that goes on from there ends. -/
def Expr.Completes (G : Aim) (wrap : Option (Context Value)) (env : Env) (code : Expr)
    (m : Machine) : Prop :=
  ∃ u m', code.Ends env m (.ok u) m' ∧ Rest G wrap u m'

/-- Calling a function gives a value, and the run that goes on from there ends. -/
def Value.Delivers (G : Aim) (wrap : Option (Context Value)) (f : Value)
    (vs : List Value) (m : Machine) : Prop :=
  ∃ u m', f.CallEnds vs m (.ok u) m' ∧ Rest G wrap u m'

section completes

variable {G : Aim} {wrap : Option (Context Value)} {env env' : Env}
  {m m₁ : Machine} {code : Expr}

/-- A call whose function and arguments have values. -/
theorem Value.Delivers.call {f : Expr} {args : List Expr} {g : Value} {vs : List Value}
    (h : g.Delivers G wrap vs m₁) (hargs : Expr.AllEnd env (f :: args) m (.ok (g :: vs)) m₁) :
  (Expr.call f args).Completes G wrap env m
  := by
  obtain ⟨u, m', hcall, hr⟩ := h
  exact ⟨u, m', Expr.ends_call hargs hcall, hr⟩

/-- A function literal delivers when its body completes. -/
theorem Expr.Completes.delivers {id : Nat} {name : Option Symbol} {params : List Symbol}
    {scope : Env} {vs : List Value} (hlen : vs.length = params.length)
    (h : code.Completes G wrap (Env.extend
      (match name with
        | some x => (x, .closure id name params code scope) :: scope
        | none => scope) params vs) m) :
  (Value.closure id name params code scope).Delivers G wrap vs m
  := by
  obtain ⟨u, m', hends, hr⟩ := h
  exact ⟨u, m', Expr.callEnds_closure hlen hends, hr⟩

/-- Code inside bindings. -/
theorem Expr.Completes.binding {bs : List (Symbol × Expr)}
    (h : code.Completes G wrap env' m₁) (hbs : Expr.BindingsEnd env bs m (.ok env') m₁) :
  (Expr.binding bs code).Completes G wrap env m
  := by
  obtain ⟨u, m', hends, hr⟩ := h
  exact ⟨u, m', Expr.tailEnds_binding hbs hends, hr⟩

/-- Code after some trees. -/
theorem Expr.Completes.block {es : List Expr} {vs : List Value}
    (h : code.Completes G wrap env m₁) (hes : Expr.AllEnd env es m (.ok vs) m₁) :
  (Expr.block (es ++ [code])).Completes G wrap env m
  := by
  obtain ⟨u, m', hends, hr⟩ := h
  exact ⟨u, m', Expr.tailEnds_block hes hends, hr⟩

/-- Code in a branch. -/
theorem Expr.Completes.cond {test yes no : Expr} {v : Value}
    (h : (if v.isTruthy then yes else no).Completes G wrap env m₁)
    (htest : test.Ends env m (.ok v) m₁) :
  (Expr.cond test yes no).Completes G wrap env m
  := by
  obtain ⟨u, m', hends, hr⟩ := h
  exact ⟨u, m', Expr.tailEnds_cond htest hends, hr⟩

end completes

end Skein
