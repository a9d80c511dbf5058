import Skein.Compile.Form
import Skein.Proofs.Meaning

/-!
# The frames of a coroutine

A name without a lexical binding is looked up in the frames of dynamic bindings that are in
force.  In a coroutine it is looked up in the frames that are in force in a direct run of
the body, except that a loop around an awaited call is entered anew in the frames of the
last awaited call.  These can be the frames of a `binding` form that has been left since.

So the frames are those of the evaluator when each such loop is entered anew steadily, which
is the case exactly when going back to the last awaited call changes nothing.
-/

namespace Skein

open Coroutine

variable {W : World} {m m₁ : Machine} {r : Ended Value} {t t' : SymbolTable}
  {body code : Expr} {params : List Symbol} {env : Env} {last : Option (Context Value)}

/-- What has been looked up when an observed coroutine has ended. -/
theorem Observed.lookups {own : Nat} {m' : Machine} (h : Observed own W r m₁ m') :
  W.Injective ∧ Option.Rel (List.Forall₂ (Lookup.Alike W)) m₁.stage.lookups m'.stage.lookups
  := by
  obtain ⟨levels, context, hm, hr⟩ := h
  exact ⟨hm.injective, hm.stage.lookups⟩

/-- The coroutine looks names up, in the same order and in alike frames, as a direct run of
its body does that enters loops anew in the context of the last awaited call; and such a run
is an evaluation of the body when it is steady. -/
theorem coroutine_looks_up_in_frames_of_body (hm : m.Sound W) (hbody : body.InBody t.User false)
    (henv : Env.Alike W t.User env env)
    (hcompile : Coroutine.compile Table.default body t = .ok (.lambda none params code) t')
    (i id : Nat)
    (h : Direct .lowered false (.tree body) (env.answering i) none m.started (r.map .value) last
      m₁) :
  (∃ W' m', W'.Injective ∧
    Option.Rel (List.Forall₂ (Lookup.Alike W')) m₁.stage.lookups m'.stage.lookups ∧
    Eventually fun c f => (Instrument.rehearse (Value.call c) f
      (.closure id none params code env)).Gives m (.ok ()) m') ∧
  (Direct .steady false (.tree body) (env.answering i) none m.started (r.map .value) last m₁ →
    body.Ends (env.answering i) m.started r m₁)
  := by
  constructor
  · obtain ⟨W', m', hobserved, hends⟩ :=
      h.rehearsed hm hbody (fun _ hx => hx.1) (henv.answering i) hcompile id
    obtain ⟨hinjective, hlookups⟩ := hobserved.lookups
    exact ⟨W', m', hinjective, hlookups, hends⟩
  · intro hsteady
    have hawait : ¬ t.User "await" := fun hx => hx.2 rfl
    have hends := Direct.ends hawait (hsteady.within Manner.steady_within_evaluated)
      ⟨false, hbody⟩ i (lookup_cons_self "await" _ env)
    exact hends.ended

/-! ### A body that binds around an awaited call -/

section binding

/-- The machine on which somebody asks for the names that are looked up. -/
def Machine.watched (m : Machine) : Machine :=
  { m with stage := { m.stage with lookups := some [] } }

/-- The numbers of frames in which names have been looked up, the last first. -/
def Machine.lookupDepths? (m : Machine) : Option (List Nat) :=
  m.stage.lookups.map (·.map (·.2.length))

/-- The names of the trees below. -/
def boundNames : SymbolTable := ⟨#["depth", "a", "op", "i"], 0⟩

/-- A name that is looked up after an awaited call, where it is bound to one. -/
def boundAwait : Expr :=
  Compile.dynamically "depth" [("a", .literal (.scalar (.int 1)))]
    (.seq [.call (.var "await") [.var "op"], .var "a"])

/-- A loop that looks the name up in each of its two turns, where the first one ends with
the binding of the name. -/
def rebindingLoop : Expr :=
  .loop [("i", .literal (.scalar (.bool true)))]
    (.seq [.var "a", .cond (.var "i")
      (.seq [boundAwait, .recur [.literal (.scalar (.bool false))]]) (.literal (.scalar .nil))])

/-- A machine is sound when somebody asks for the names that are looked up. -/
theorem Machine.Sound.watched (h : m.Sound W) :
  m.watched.Sound W
  := by
  constructor
  · exact { h.alike with stage := { h.alike.stage with lookups := .some .nil } }
  · exact h.pending

/-- The names that stand in the trees can stand in a body. -/
theorem boundNames_user {x : Symbol} (hx : x ∈ ["depth", "a", "op", "i"]) :
  boundNames.User x
  := by
  have hnames : ∀ x ∈ ["depth", "a", "op", "i"], x ∈ boundNames.names ∧ x ≠ "await" := by
    simp [boundNames]
  exact hnames x hx

/-- The body can stand in a coroutine. -/
theorem boundAwait_inBody :
  boundAwait.InBody boundNames.User false
  := by
  have hvar : ∀ x ∈ ["depth", "a", "op", "i"], (Expr.var x).InBody boundNames.User false :=
    fun x hx => .var (boundNames_user hx)
  have hawait : (Expr.call (.var "await") [.var "op"]).InBody boundNames.User false := by
    apply Expr.InBody.await
    intro e he
    obtain rfl := List.mem_singleton.1 he
    exact hvar _ (by decide)
  apply Expr.InBody.bind
  · intro b hb
    obtain rfl := List.mem_singleton.1 hb
    exact boundNames_user (by decide)
  · intro b hb
    obtain rfl := List.mem_singleton.1 hb
    apply Expr.InBody.call (.builtin _)
    intro e he
    rcases List.mem_cons.1 he with rfl | he
    · exact .literal _
    · obtain rfl := List.mem_singleton.1 he
      exact .literal _
  · apply Expr.InBody.protect
    · apply Expr.InBody.seq
      · intro e he
        obtain rfl := List.mem_singleton.1 he
        exact hawait
      · rintro e ⟨⟩
        exact hvar _ (by decide)
    · exact fun _ h => absurd h List.not_mem_nil
    · exact fun _ h => absurd h List.not_mem_nil
    · rintro e ⟨⟩
      apply Expr.InBody.call (.builtin _)
      intro e he
      obtain rfl := List.mem_singleton.1 he
      exact hvar _ (by decide)

/-- The body of the example is evaluated steadily. -/
theorem boundAwait_direct :
  ∃ last m₁, m₁.lookupDepths? = some [1] ∧
    Direct .steady false (.tree boundAwait) (wakefulScope.answering 3) none
      wakeful.watched.started ((Except.ok (.int 1)).map .value) last m₁
  := by
  have henter : Direct .steady false (.bindings [("depth", .call (.builtin .pushBindings)
      [.literal (.symbol "a"), .literal (.scalar (.int 1))])]) (wakefulScope.answering 3) none
      wakeful.watched.started
      (.ok (.scope (("depth", .int 0) :: wakefulScope.answering 3))) none _ :=
    .bindingsCons (.plain (r := .ok _) (by decide_cbv) (Expr.ends_of_gives 5 rfl) ⟨rfl, rfl⟩)
      .bindingsNil
  have hop (m : Machine) : Direct .steady false (.trees [.var "op"])
      (("depth", .int 0) :: wakefulScope.answering 3) none m
      (.ok (.values [.native (.instrument 2 .operation)])) none m :=
    .treesCons (.plain (r := .ok _) (by decide_cbv) (Expr.ends_of_gives 5 rfl) ⟨rfl, rfl⟩)
      .treesNil
  have hneeds : boundAwait.Needs false := Expr.needs_of_child List.mem_concat_self (by decide_cbv)
  refine ⟨_, _, ?_, .bind hneeds henter (.cleanup (by decide_cbv)
    (.passed (.seq (by decide_cbv) (.statementsCons (List.cons_ne_nil _ _)
      (.await (r := .ok .nil) (by decide_cbv) (hop _) rfl)
      (.statementsLast
        (.plain (r := .ok _) (by decide_cbv) (Expr.ends_of_gives 9 rfl) ⟨rfl, rfl⟩)))))
    (.plain (r := .ok _) (by decide_cbv) (Expr.ends_of_gives 9 rfl) ⟨rfl, rfl⟩))⟩
  rfl

/-- The coroutine of the example looks the name up in the frame of its binding. -/
theorem boundAwait_coroutine_looks_up :
  ∃ params code t' m₁,
    Coroutine.compile Table.default boundAwait boundNames = .ok (.lambda none params code) t' ∧
    m₁.lookupDepths? = some [1] ∧
    boundAwait.Ends (wakefulScope.answering 3) wakeful.watched.started (.ok (.int 1)) m₁ ∧
    ∃ W' m', W'.Injective ∧
      Option.Rel (List.Forall₂ (Lookup.Alike W')) m₁.stage.lookups m'.stage.lookups ∧
      Eventually fun c f => (Instrument.rehearse (Value.call c) f
        (.closure 3 none params code wakefulScope)).Gives wakeful.watched (.ok ()) m'
  := by
  have hok : compiles boundAwait boundNames = true := by decide +kernel
  obtain ⟨params, code, t', hcompile⟩ := exists_compile hok
  obtain ⟨last, m₁, hdepths, hsteady⟩ := boundAwait_direct
  obtain ⟨hlookups, hends⟩ := coroutine_looks_up_in_frames_of_body wakeful_sound.watched
    boundAwait_inBody (wakefulScope_alike _) hcompile 3 3
    (hsteady.within Manner.steady_within_lowered)
  exact ⟨params, code, t', m₁, hcompile, hdepths, hends hsteady, hlookups⟩

/-- The second turn of the loop looks the name up in the frame that the first turn has left,
where the evaluator looks it up in no frame. -/
theorem rebindingLoop_frames_differ :
  (∃ m₁, rebindingLoop.Ends (wakefulScope.answering 3) wakeful.watched.started (.ok .nil) m₁ ∧
    m₁.lookupDepths? = some [0, 1, 0]) ∧
  ∃ params code t' m',
    Coroutine.compile Table.default rebindingLoop boundNames =
      .ok (.lambda none params code) t' ∧
    (Instrument.rehearse (Value.call 30) 30 (.closure 3 none params code wakefulScope)).Gives
      wakeful.watched (.ok ()) m' ∧
    m'.lookupDepths? = some [1, 1, 0]
  := by
  constructor
  · exact ⟨_, Expr.ends_of_gives 20 rfl, rfl⟩
  · have hdepths : (rehearsed? rebindingLoop boundNames wakefulScope 30 wakeful.watched).bind
        (·.lookupDepths?) = some [1, 1, 0] := by decide +kernel
    obtain ⟨m', hrun, hdepths⟩ := Option.bind_eq_some_iff.1 hdepths
    obtain ⟨params, code, t', hcompile, hends⟩ := rehearsed?_eq_some hrun
    exact ⟨params, code, t', m', hcompile, hends, hdepths⟩

end binding

end Skein
