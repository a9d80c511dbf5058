import Skein.Proofs.Restoring

/-!
# Requests leave the dynamic context as it was

Evaluating a text reads it, and then compiles and evaluates its forms in turn.  Reading and
compiling do not touch the machine, so a request keeps of the machine what every evaluation
keeps, whether it gives a value or fails.
-/

namespace Skein

open Run Trampoline

variable {α β : Type}

/-! ### How requests end -/

/-- Whether a failure is reported to the one who made the request, so that another request can
be made after it. -/
def Failure.isReported : Failure → Bool
  | fault _ | exhausted => false
  | _ => true

/-- A request ends: it has a result, or it fails and the failure is reported. -/
inductive Request.Ends (act : Request α) (i : Interpreter) :
    Except Failure α → Interpreter → Prop where
  | ok {a : α} {i' : Interpreter} (h : act i = .ok a i') : Ends act i (.ok a) i'
  | error {e : Failure} {i' : Interpreter} (he : e.isReported = true)
    (h : act i = .error e i') : Ends act i (.error e) i'

namespace Request

variable {act : Request α} {k : α → Request β} {i i' i₁ : Interpreter}

/-- One request after another. -/
theorem bind_apply (act : Request α) (k : α → Request β) (i : Interpreter) :
  (act >>= k) i = match act i with
    | .ok a i => k a i
    | .error e i => .error e i
  := by
  change EStateM.bind act k i = _
  unfold EStateM.bind
  cases act i <;> rfl

/-- A request ends in one way. -/
theorem Ends.unique {r s : Except Failure α} (h : act.Ends i r i') (h' : act.Ends i s i₁) :
  r = s ∧ i' = i₁
  := by
  cases h with
  | ok h =>
    cases h' with
    | ok h' => cases h.symm.trans h'; exact ⟨rfl, rfl⟩
    | error _ h' => cases h.symm.trans h'
  | error _ h =>
    cases h' with
    | ok h' => cases h.symm.trans h'
    | error _ h' => cases h.symm.trans h'; exact ⟨rfl, rfl⟩

/-- One request after another ends as the second one does. -/
theorem Ends.bind {a : α} {r : Except Failure β} (h : act.Ends i (.ok a) i₁)
    (hk : (k a).Ends i₁ r i') :
  (act >>= k).Ends i r i'
  := by
  cases h with
  | ok h =>
    have hbind : (act >>= k) i = k a i₁ := by rw [bind_apply, h]
    cases hk with
    | ok hk => exact .ok (hbind.trans hk)
    | error he hk => exact .error he (hbind.trans hk)

/-- One request after another ends where the first one fails. -/
theorem Ends.bind_error {e : Failure} (h : act.Ends i (.error e) i') :
  (act >>= k).Ends i (.error e) i'
  := by
  cases h with
  | error he h => exact .error he (by rw [bind_apply, h])

/-- How one request after another ends. -/
theorem ends_bind_iff {r : Except Failure β} :
  (act >>= k).Ends i r i' ↔
    (∃ a i₁, act.Ends i (.ok a) i₁ ∧ (k a).Ends i₁ r i') ∨
    ∃ e, r = .error e ∧ act.Ends i (.error e) i'
  := by
  constructor
  · intro h
    cases hact : act i with
    | ok a i₁ =>
      have hbind : (act >>= k) i = k a i₁ := by rw [bind_apply, hact]
      refine .inl ⟨a, i₁, .ok hact, ?_⟩
      cases h with
      | ok h => exact .ok (hbind.symm.trans h)
      | error he h => exact .error he (hbind.symm.trans h)
    | error e i₁ =>
      have hbind : (act >>= k) i = .error e i₁ := by rw [bind_apply, hact]
      cases h with
      | ok h => cases hbind.symm.trans h
      | error he h =>
        cases hbind.symm.trans h
        exact .inr ⟨e, rfl, .error he hact⟩
  · rintro (⟨a, i₁, h, hk⟩ | ⟨e, rfl, h⟩)
    · exact h.bind hk
    · exact h.bind_error

end Request

namespace Interpreter

open Request

variable {i i' : Interpreter} {R : Regime} {post : α → Prop}

/-- A computation that ends lets the request to run it end. -/
theorem ends_running {act : Run α} {s : Ended α} {m' : Machine}
    (h : act.Gives i.machine s m') :
  (running act).Ends i (s.mapError .runtime) { i with machine := m' }
  := by
  unfold Gives at h
  cases s with
  | ok a => exact .ok (by rw [running, h])
  | error c => exact .error rfl (by rw [running, h]; rfl)

/-- A request to run a computation ends where the computation does. -/
theorem gives_of_running {act : Run α} {r : Except Failure α}
    (h : (running act).Ends i r i') :
  ∃ s m', act.Gives i.machine s m' ∧ r = s.mapError .runtime ∧ i' = { i with machine := m' }
  := by
  cases hact : act i.machine with
  | ok a m' => exact ⟨.ok a, m', hact, (h.unique (ends_running (s := .ok a) hact))⟩
  | error stop m' =>
    cases stop with
    | raised c => exact ⟨.error c, m', hact, h.unique (ends_running (s := .error c) hact)⟩
    | fault message =>
      cases h with
      | ok h => rw [running, hact] at h; cases h
      | error he h => rw [running, hact] at h; cases h; cases he
    | exhausted =>
      cases h with
      | ok h => rw [running, hact] at h; cases h
      | error he h => rw [running, hact] at h; cases h; cases he

/-- Reading changes the symbols only. -/
theorem ends_reading {act : Source.Reading α} {r : Except Failure α}
    (h : (reading act).Ends i r i') :
  ∃ t, i' = { i with symbols := t }
  := by
  cases hact : act i.symbols with
  | ok a t =>
    have hreading : reading act i = .ok a { i with symbols := t } := by rw [reading, hact]
    exact ⟨t, (h.unique (.ok hreading)).2⟩
  | error e t =>
    have hreading : reading act i = .error (.read e) { i with symbols := t } := by
      rw [reading, hact]
    exact ⟨t, (h.unique (.error rfl hreading)).2⟩

/-- Compiling changes the symbols only. -/
theorem ends_compiling {act : Compiling α} {r : Except Failure α}
    (h : (compiling act).Ends i r i') :
  ∃ t, i' = { i with symbols := t }
  := by
  cases hact : act i.symbols with
  | ok a t =>
    have hcompiling : compiling act i = .ok a { i with symbols := t } := by
      rw [compiling, hact]
    exact ⟨t, (h.unique (.ok hcompiling)).2⟩
  | error e t =>
    have hcompiling : compiling act i = .error (.compile e) { i with symbols := t } := by
      rw [compiling, hact]
    exact ⟨t, (h.unique (.error rfl hcompiling)).2⟩

/-- Compiling a form changes the symbols only, and gives a tree that has been made of it. -/
theorem ends_compileForm {d : Datum} {r : Except Failure Expr}
    (h : (compileForm d).Ends i r i') :
  (∃ t, i' = { i with symbols := t }) ∧
    ∀ e, r = .ok e → ∃ t, Compile.compile i.options d i.symbols = .ok e t
  := by
  have hform : compileForm d i = compiling (Compile.compile i.options d) i := rfl
  cases hact : Compile.compile i.options d i.symbols with
  | ok e t =>
    rw [compiling, hact] at hform
    obtain ⟨rfl, rfl⟩ := h.unique (.ok hform)
    exact ⟨⟨t, rfl⟩, fun b hb => by cases hb; exact ⟨t, rfl⟩⟩
  | error e t =>
    rw [compiling, hact] at hform
    obtain ⟨rfl, rfl⟩ := h.unique (.error rfl hform)
    exact ⟨⟨t, rfl⟩, nofun⟩

/-! ### Evaluating a text -/

/-- Compile some forms and evaluate their trees in some way in turn, as `evalForms` does. -/
def evalFormsBy (eval : Expr → Run Value) (last : Value) : List Datum → Request Value
  | [] => return last
  | d :: ds => do
    let e ← compileForm d
    let v ← running (eval e)
    evalFormsBy eval v ds

/-- Evaluate every form of a text in some way, as `evalAll` does. -/
def evalAllBy (eval : Expr → Run Value) (source : String) : Request Value := do
  let forms ← reading (Source.readAll source)
  evalFormsBy eval .nil forms

/-- Evaluating forms is evaluating them in the way of `evalTop`. -/
theorem evalForms_eq (fuel : Nat) (last : Value) (ds : List Datum) :
  evalForms fuel last ds = evalFormsBy (·.evalTop fuel) last ds
  := by
  induction ds generalizing last with
  | nil => rfl
  | cons d ds ih => simp only [evalForms, evalFormsBy, evalExpr, ih]

/-- Evaluating a text is evaluating it in the way of `evalTop`. -/
theorem evalAll_eq (fuel : Nat) (source : String) :
  evalAll fuel source = evalAllBy (·.evalTop fuel) source
  := by
  simp only [evalAll, evalAllBy, evalForms_eq]

/-- A request keeps of the machine what a regime keeps, and does not change what compiling
depends on. -/
structure Kept (R : Regime) (i i' : Interpreter) : Prop where
  options : i'.options = i.options
  obeys : i'.machine.Obeys R
  keeps : R.keeps i.machine i'.machine

section keeping

variable {eval : Expr → Run Value} {o : Compile.Options} (hR : R.Lawful)
  (hcompile : ∀ d, Compiling.Makes R.code (Compile.compile o d))
  (heval : ∀ e, R.code e → (eval e).Keeps R fun _ => True)
include hR hcompile heval

/-- Evaluating forms keeps what evaluating each of them keeps. -/
theorem evalFormsBy_kept {last : Value} {ds : List Datum} {r : Except Failure Value}
    (h : (evalFormsBy eval last ds).Ends i r i') (ho : i.options = o)
    (hi : i.machine.Obeys R) :
  i.Kept R i'
  := by
  induction ds generalizing i last with
  | nil =>
    obtain ⟨-, rfl⟩ := h.unique (.ok rfl)
    exact ⟨rfl, hi, hR.refl _⟩
  | cons d ds ih =>
    have hcompiled : ∀ r i₁, (compileForm d).Ends i r i₁ →
        (∃ t, i₁ = { i with symbols := t }) ∧ ∀ e, r = .ok e → R.code e := by
      intro r i₁ h
      obtain ⟨hsymbols, hmade⟩ := ends_compileForm h
      refine ⟨hsymbols, fun e he => ?_⟩
      obtain ⟨t, ht⟩ := hmade e he
      rw [ho] at ht
      exact hcompile d _ _ _ ht
    rcases ends_bind_iff.1 h with ⟨e, i₁, hform, h⟩ | ⟨failure, -, hform⟩
    · obtain ⟨⟨t, rfl⟩, hcode⟩ := hcompiled _ _ hform
      rcases ends_bind_iff.1 h with ⟨v, i₂, hvalue, h⟩ | ⟨failure, -, hvalue⟩
      · obtain ⟨s, m', hgives, -, rfl⟩ := gives_of_running hvalue
        obtain ⟨-, hm', hkeeps⟩ := (heval e (hcode e rfl)).gives hi hgives
        obtain ⟨hoptions, hobeys, hkeeps'⟩ := ih h ho hm'
        exact ⟨hoptions, hobeys, hR.trans hkeeps hkeeps'⟩
      · obtain ⟨s, m', hgives, -, rfl⟩ := gives_of_running hvalue
        obtain ⟨-, hm', hkeeps⟩ := (heval e (hcode e rfl)).gives hi hgives
        exact ⟨rfl, hm', hkeeps⟩
    · obtain ⟨⟨t, rfl⟩, -⟩ := hcompiled _ _ hform
      exact ⟨rfl, hi, hR.refl _⟩

/-- Evaluating a text keeps what evaluating each of its forms keeps. -/
theorem evalAllBy_kept {source : String} {r : Except Failure Value}
    (h : (evalAllBy eval source).Ends i r i') (ho : i.options = o) (hi : i.machine.Obeys R) :
  i.Kept R i'
  := by
  rcases ends_bind_iff.1 h with ⟨ds, i₁, hread, h⟩ | ⟨failure, -, hread⟩
  · obtain ⟨t, rfl⟩ := ends_reading hread
    obtain ⟨hoptions, hobeys, hkeeps⟩ := evalFormsBy_kept hR hcompile heval h ho hi
    exact ⟨hoptions, hobeys, hkeeps⟩
  · obtain ⟨t, rfl⟩ := ends_reading hread
    exact ⟨rfl, hi, hR.refl _⟩

end keeping

section below

variable {eval eval' : Expr → Run Value} (heval : ∀ e, Below (eval e) (eval' e))
  {r : Except Failure Value}
include heval

/-- Evaluating forms in one way ends as it does in a way above it. -/
theorem evalFormsBy_below {last : Value} {ds : List Datum}
    (h : (evalFormsBy eval last ds).Ends i r i') :
  (evalFormsBy eval' last ds).Ends i r i'
  := by
  induction ds generalizing i last with
  | nil => exact h
  | cons d ds ih =>
    have hrunning : ∀ {e s i₁ i₂}, (running (eval e)).Ends i₁ s i₂ →
        (running (eval' e)).Ends i₁ s i₂ := by
      intro e s i₁ i₂ h
      obtain ⟨s, m', hgives, rfl, rfl⟩ := gives_of_running h
      exact ends_running (heval e _ s m' hgives)
    rcases ends_bind_iff.1 h with ⟨e, i₁, hform, h⟩ | ⟨failure, rfl, hform⟩
    · rcases ends_bind_iff.1 h with ⟨v, i₂, hvalue, h⟩ | ⟨failure, rfl, hvalue⟩
      · exact hform.bind ((hrunning hvalue).bind (ih h))
      · exact hform.bind (hrunning hvalue).bind_error
    · exact hform.bind_error

/-- Evaluating a text in one way ends as it does in a way above it. -/
theorem evalAllBy_below {source : String} (h : (evalAllBy eval source).Ends i r i') :
  (evalAllBy eval' source).Ends i r i'
  := by
  rcases ends_bind_iff.1 h with ⟨ds, i₁, hread, h⟩ | ⟨failure, rfl, hread⟩
  · exact hread.bind (evalFormsBy_below heval h)
  · exact hread.bind_error

end below

/-! ### The dynamic context -/

/-- Neither what the machine of an interpreter holds nor what its breakpoints make holds a
function that enters or leaves frames. -/
structure Framed (i : Interpreter) : Prop where
  machine : i.machine.Obeys .framed
  flavors : i.flavors.Framed

/-- Evaluate a text as `evalAll` does, but do not go on where a function literal that may leave
a frame behind is called while the execution `own` is driven. -/
def evalAllClosed (own : Option Nat) (fuel : Nat) (source : String) : Request Value :=
  evalAllBy (·.evalClosed own fuel) source

/-- An interpreter without primitives holds no function that enters or leaves frames. -/
theorem framed_bare :
  bare.Framed
  where
  machine := {
    globals := fun _ h => absurd h List.not_mem_nil
    atoms := fun _ h => absurd h (Array.not_mem_empty _)
    context := fun _ h => absurd h List.not_mem_nil
    levels := fun _ h => absurd h List.not_mem_nil
    timers := fun _ h => absurd h List.not_mem_nil
    deliveries := fun _ => .ok (.scalar _)
    pending := fun _ h => absurd h List.not_mem_nil }
  flavors := Coroutine.Flavors.framed_default

/-- Defining a primitive defines no function that enters or leaves frames. -/
theorem framed_define {name : Symbol} {p : Primitive} {r : Except Failure Unit}
    (hi : i.Framed) (h : (define name (.native (.primitive p))).Ends i r i') :
  i'.Framed
  := by
  rcases ends_bind_iff.1 h with ⟨_, i₁, hintern, h⟩ | ⟨failure, -, hintern⟩
  · obtain ⟨-, rfl⟩ := hintern.unique (.ok rfl)
    obtain ⟨s, m', hgives, -, rfl⟩ := gives_of_running h
    have hdefine : (Run.define name (.native (.primitive p))).Keeps .framed fun _ => True :=
      Keeps.define Regime.framed_lawful name (.primitive trivial)
    exact ⟨(hdefine.gives hi.machine hgives).2.1, hi.flavors⟩
  · obtain ⟨hfailed, -⟩ := hintern.unique (.ok rfl)
    cases hfailed

/-- Defining the primitives defines no function that enters or leaves frames. -/
theorem framed_definePrimitives {r : Except Failure Unit} (hi : i.Framed)
    (h : definePrimitives.Ends i r i') :
  i'.Framed
  := by
  unfold definePrimitives at h
  revert h
  generalize Primitive.all = ps
  intro h
  induction ps generalizing i with
  | nil =>
    obtain ⟨-, rfl⟩ := h.unique (.ok rfl)
    exact hi
  | cons p ps ih =>
    rcases ends_bind_iff.1 h with ⟨_, i₁, hdefine, h⟩ | ⟨failure, -, hdefine⟩
    · exact ih (framed_define hi hdefine) h
    · exact framed_define hi hdefine

/-- Evaluating a text leaves the machine with no function that enters or leaves frames. -/
theorem framed_evalAll {fuel : Nat} {source : String} {r : Except Failure Value}
    (hi : i.Framed) (h : (evalAll fuel source).Ends i r i') :
  i'.Framed
  := by
  rw [evalAll_eq] at h
  have hcompile : ∀ d, Compiling.Makes Regime.framed.code (Compile.compile i.options d) :=
    fun d t e t' he => (Compile.compile_tidy (o := i.options) hi.flavors d t e t' he).framed
  have heval : ∀ e, Regime.framed.code e →
      (e.evalTop fuel).Keeps .framed fun _ => True := by
    intro e he
    exact (Expr.evalTop_framed he fuel).imp fun _ _ => trivial
  obtain ⟨hoptions, hobeys, -⟩ :=
    evalAllBy_kept Regime.framed_lawful hcompile heval h rfl hi.machine
  have hflavors : i'.flavors = i.flavors := congrArg (·.flavors) hoptions
  exact ⟨hobeys, hflavors ▸ hi.flavors⟩

/-- When evaluating a text ends, with a value or with a failure, the execution that is driven
is the one that was driven before.  The frames of dynamic bindings are those that were in force
before, unless a function that may leave a frame behind, which only a coroutine body can become,
has been called while that execution was driven. -/
theorem evalAll_restores_context {fuel : Nat} {source : String} {r : Except Failure Value}
    (h : (evalAll fuel source).Ends i r i') :
  i'.machine.context.execution = i.machine.context.execution ∧
    (i.Framed →
      (∃ r' i'', (evalAllClosed i.machine.context.execution fuel source).Ends i r' i'') →
      i'.machine.context = i.machine.context)
  := by
  rw [evalAll_eq] at h
  constructor
  · have hR := Regime.everything_lawful (Machine.sameExecution_keeping
      (R := .everything Machine.SameExecution) rfl)
    have hkept := evalAllBy_kept hR (o := i.options) (fun _ _ _ _ _ => trivial)
      (fun e _ => e.evalTop_sameExecution fuel) h rfl (i.machine.obeys_everything _)
    exact hkept.keeps
  · rintro hi ⟨r', i'', hclosed⟩
    have hsame := evalAllBy_below (fun e => e.evalClosed_below fuel) hclosed
    obtain ⟨rfl, rfl⟩ := h.unique hsame
    have hR := Regime.restoring_lawful i.machine.context.execution
    have hkept := evalAllBy_kept hR (fun d => Compile.compile_tidy (o := i.options) hi.flavors d)
      (fun e he => (Expr.evalClosed_restoring he fuel).imp fun _ _ => trivial) hclosed rfl
      hi.machine
    exact hkept.keeps.context rfl

section bound

/-- The interpreter that a request leaves, when it ends. -/
def left? (act : Request α) (i : Interpreter) : Option Interpreter :=
  match act i with
  | .ok _ i' => some i'
  | .error e i' => if e.isReported then some i' else none

/-- A request that leaves an interpreter ends. -/
theorem ends_of_left? {act : Request α} (h : left? act i = some i') :
  ∃ r, act.Ends i r i'
  := by
  unfold left? at h
  split at h
  · rename_i a _ hact
    cases h
    exact ⟨.ok a, .ok hact⟩
  · rename_i e _ hact
    split at h
    · rename_i he
      cases h
      exact ⟨.error e, .error he hact⟩
    · cases h

/-- An interpreter in which coroutines can be started and conditions raised. -/
def starting : Interpreter :=
  { bare with
    machine := { Machine.empty with
      globals := [
        ("run", .native (.primitive (.coroutine .run))),
        ("error", .native (.primitive (.condition .error)))] } }

/-- A text that starts a coroutine which awaits inside of a binding, and then fails inside of
another binding. -/
def boundCoroutine : String :=
  "(run (async (binding [x 1] (await (fn [k f] (k x))))) (fn [v] v) (fn [e] e))
   (binding [x 2] (error x))"

/-- The interpreter holds no function that enters or leaves frames. -/
theorem framed_starting :
  starting.Framed
  where
  machine := { framed_bare.machine with
    globals := List.forall_mem_cons.2 ⟨fun _ => .primitive trivial,
      List.forall_mem_singleton.2 fun _ => .primitive trivial⟩ }
  flavors := framed_bare.flavors

/-- The text leaves the context as it was. -/
theorem boundCoroutine_restores_context :
  ∃ r i', (evalAll 60 boundCoroutine).Ends starting r i' ∧
    i'.machine.context = starting.machine.context
  := by
  have hcheck : (left? (evalAllClosed starting.machine.context.execution 60 boundCoroutine)
      starting).isSome = true := by decide +kernel
  obtain ⟨i', hleft⟩ := Option.isSome_iff_exists.1 hcheck
  obtain ⟨r, hclosed⟩ := ends_of_left? hleft
  have hends : (evalAll 60 boundCoroutine).Ends starting r i' := by
    rw [evalAll_eq]
    exact evalAllBy_below (fun e : Expr => e.evalClosed_below 60) hclosed
  exact ⟨r, i', hends, (evalAll_restores_context hends).2 framed_starting ⟨r, i', hclosed⟩⟩

end bound

end Interpreter

end Skein
