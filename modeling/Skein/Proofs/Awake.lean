import Skein.Proofs.Frames

/-!
# The state that a body sees

The execution of a coroutine is running while its body is evaluated: it is suspended when an
operation is about to be called, and running again before what follows is evaluated.  So
the body sees its execution in the states in which a direct run sees it, where an awaited
call leaves it running.
-/

namespace Skein

open Coroutine

variable {W : World} {m m₁ : Machine} {r : Ended Value} {t t' : SymbolTable}
  {body code : Expr} {params : List Symbol} {env : Env} {last : Option (Context Value)}

/-- The executions that were driven when names were looked up were running. -/
def Machine.SawRunning (m : Machine) : Prop :=
  ∀ states ∈ m.stage.states, ∀ s ∈ states, s.2 = some .running

/-- In which states an observed coroutine has seen its execution. -/
theorem Observed.states_eq {own : Nat} {m' : Machine} (h : Observed own W r m₁ m') :
  m'.stage.states = m₁.stage.states
  := by
  obtain ⟨levels, context, hm, hr⟩ := h
  exact hm.stage.states.symm

/-- The body of a coroutine sees its execution in the states in which a direct run of the body
sees it, whichever of its awaited calls are answered late. -/
theorem coroutine_sees_states_of_body (hm : m.Sound W) (hbody : body.InBody t.User false)
    (henv : Env.Alike W t.User env env)
    (hcompile : Coroutine.compile Table.default body t = .ok (.lambda none params code) t')
    (i id : Nat)
    (h : Direct .lowered false (.tree body) (env.answering i) none m.started (r.map .value) last
      m₁) (hrunning : m₁.SawRunning) :
  ∃ m', m'.stage.states = m₁.stage.states ∧ m'.SawRunning ∧
    Eventually fun c f => (Instrument.rehearse (Value.call c) f
      (.closure id none params code env)).Gives m (.ok ()) m'
  := by
  obtain ⟨W', m', hobserved, hends⟩ :=
    h.rehearsed hm hbody (fun _ hx => hx.1) (henv.answering i) hcompile id
  have hstates := hobserved.states_eq
  refine ⟨m', hstates, ?_, hends⟩
  intro states hs
  rw [hstates] at hs
  exact hrunning states hs

/-! ### A body that looks names up after an awaited call -/

section asking

/-- The machine on which somebody asks for the states in which names are looked up. -/
def Machine.asked (m : Machine) : Machine :=
  { m with stage := { m.stage with states := some [] } }

/-- A machine is sound when somebody asks for the states in which names are looked up. -/
theorem Machine.Sound.asked (h : m.Sound W) :
  m.asked.Sound W
  := by
  constructor
  · exact { h.alike with stage := { h.alike.stage with states := rfl } }
  · exact h.pending

/-- The body of the example is evaluated while its execution is running. -/
theorem aroundAwait_sees_running :
  ∃ last m₁, m₁.stage.states =
      some (["a", "deref", "list", "a", "deref"].map fun x => (x, some .running)) ∧
    Direct .lowered false (.tree aroundAwait) (wakefulScope.answering 3) none
      wakeful.asked.started ((Except.ok (.list [.int 0, .int 0])).map .value) last m₁
  := by
  have hderef : (Expr.call (.var "deref") [.var "a"]).Ends (wakefulScope.answering 3)
      wakeful.asked.started (.ok (.int 0)) _ := Expr.ends_of_gives 5 rfl
  have hx : Direct .lowered false (.bindings [("x", .call (.var "deref") [.var "a"])])
      (wakefulScope.answering 3) none wakeful.asked.started
      (.ok (.scope (("x", .int 0) :: wakefulScope.answering 3))) none _ :=
    .bindingsCons (.plain (r := .ok _) (by decide_cbv) hderef ⟨rfl, rfl⟩) .bindingsNil
  have hop (m : Machine) : Direct .lowered false (.trees [.var "op"])
      (("x", .int 0) :: wakefulScope.answering 3) none m
      (.ok (.values [.native (.instrument 2 .operation)])) none m :=
    .treesCons (.plain (r := .ok _) (by decide_cbv) (Expr.ends_of_gives 5 rfl) ⟨rfl, rfl⟩)
      .treesNil
  refine ⟨_, _, ?_, .bind aroundAwait_needs hx (.seq (by decide_cbv)
    (.statementsCons (List.cons_ne_nil _ _)
      (.await (r := .ok .nil) (by decide_cbv) (hop _) rfl) (.statementsLast
        (.plain (r := .ok _) (by decide_cbv) (Expr.ends_of_gives 9 rfl) ⟨rfl, rfl⟩))))⟩
  rfl

/-- The coroutine of the example sees its execution running. -/
theorem aroundAwait_coroutine_sees_running :
  ∃ (params : List Symbol) (code : Expr) (t' : SymbolTable) (m₁ : Machine),
    Coroutine.compile Table.default aroundAwait wakefulNames = .ok (.lambda none params code) t' ∧
    m₁.SawRunning ∧ ∃ m', m'.stage.states = m₁.stage.states ∧ m'.SawRunning ∧
      Eventually fun c f => (Instrument.rehearse (Value.call c) f
        (.closure 3 none params code wakefulScope)).Gives wakeful.asked (.ok ()) m'
  := by
  have hok : compiles aroundAwait wakefulNames = true := by decide +kernel
  obtain ⟨params, code, t', hcompile⟩ := exists_compile hok
  obtain ⟨last, m₁, hstates, hdirect⟩ := aroundAwait_sees_running
  have hsaw : m₁.SawRunning := by
    intro states h s hs
    rw [hstates] at h
    cases h
    obtain ⟨x, -, rfl⟩ := List.mem_map.1 hs
    rfl
  exact ⟨params, code, t', m₁, hcompile, hsaw, coroutine_sees_states_of_body wakeful_sound.asked
    aroundAwait_inBody (wakefulScope_alike _) hcompile 3 3 hdirect hsaw⟩

end asking

end Skein
