import Skein.Proofs.Simulation.Body

/-!
# Runs up to the first suspension

A run without suspension, as far as the first awaited call that it comes to: the operation and
the arguments of the call have their values, and the operation has not been called yet.  The run
is taken apart where the body is, as a run to the end is.

Code follows such a run as it follows one that raises a condition on a machine that is alike to
no other one.  No continuation is called on such a machine, and so the code ends with what the
operation does.
-/

namespace Skein

open Coroutine

/-- A part of a body is evaluated in a scope up to the first awaited call: `op` is the operation
of the call, `args` are its arguments. -/
inductive Pauses : (inner : Bool) → Task → Env → Machine → (op : Value) → (args : List Value) →
    Machine → Prop where
  -- calls
  | await {inner env m m'} {es : List Expr} {op : Value} {args : List Value}
    (hn : (Expr.call (.var "await") es).Needs inner)
    (h : Direct .evaluated inner (.trees es) env none m (.ok (.values (op :: args))) none m') :
    Pauses inner (.tree (.call (.var "await") es)) env m op args m'
  | awaitArgs {inner env m m' op args} {es : List Expr}
    (hn : (Expr.call (.var "await") es).Needs inner)
    (h : Pauses inner (.trees es) env m op args m') :
    Pauses inner (.tree (.call (.var "await") es)) env m op args m'
  | call {inner env m m' op args} {f : Expr} {es : List Expr} (hn : (Expr.call f es).Needs inner)
    (hf : f ≠ .var "await") (h : Pauses inner (.trees (f :: es)) env m op args m') :
    Pauses inner (.tree (.call f es)) env m op args m'
  -- conditionals, sequences and bindings
  | test {inner env m m' op args} {test yes no : Expr} (hn : (Expr.cond test yes no).Needs inner)
    (h : Pauses inner (.tree test) env m op args m') :
    Pauses inner (.tree (.cond test yes no)) env m op args m'
  | branch {inner env m m₁ m' op args} {test yes no : Expr} {v : Value}
    (hn : (Expr.cond test yes no).Needs inner)
    (htest : Direct .evaluated inner (.tree test) env none m (.ok (.value v)) none m₁)
    (h : Pauses inner (.tree (if v.isTruthy then yes else no)) env m₁ op args m') :
    Pauses inner (.tree (.cond test yes no)) env m op args m'
  | seq {inner env m m' op args} {es : List Expr} (hn : (Expr.seq es).Needs inner)
    (h : Pauses inner (.statements es) env m op args m') :
    Pauses inner (.tree (.seq es)) env m op args m'
  | bindInit {inner env m m' op args} {bs : List (Symbol × Expr)} {body : Expr}
    (hn : (Expr.bind bs body).Needs inner) (h : Pauses inner (.bindings bs) env m op args m') :
    Pauses inner (.tree (.bind bs body)) env m op args m'
  | bind {inner env env₁ m m₁ m' op args} {bs : List (Symbol × Expr)} {body : Expr}
    (hn : (Expr.bind bs body).Needs inner)
    (hbs : Direct .evaluated inner (.bindings bs) env none m (.ok (.scope env₁)) none m₁)
    (h : Pauses inner (.tree body) env₁ m₁ op args m') :
    Pauses inner (.tree (.bind bs body)) env m op args m'
  -- loops
  | loopInit {inner env m m' op args} {bs : List (Symbol × Expr)} {body : Expr}
    (hn : (Expr.loop bs body).Needs inner) (h : Pauses inner (.bindings bs) env m op args m') :
    Pauses inner (.tree (.loop bs body)) env m op args m'
  | loop {inner env env₁ m m₁ m' op args} {bs : List (Symbol × Expr)} {body : Expr}
    (hn : (Expr.loop bs body).Needs inner)
    (hbs : Direct .evaluated inner (.bindings bs) env none m (.ok (.scope env₁)) none m₁)
    (h : Pauses true (.iterate env (bs.map (·.1)) body) env₁ m₁ op args m') :
    Pauses inner (.tree (.loop bs body)) env m op args m'
  | recur {inner env m m' op args} {es : List Expr} (hn : (Expr.recur es).Needs inner)
    (h : Pauses inner (.trees es) env m op args m') :
    Pauses inner (.tree (.recur es)) env m op args m'
  -- protected bodies and definitions
  | protect {inner env m m' op args} {body : Expr} {clauses : List (Clause Expr)}
    {cleanup : Option Expr} (hn : (Expr.protect body clauses cleanup).Needs inner)
    (h : Pauses inner (.guarded body clauses) env m op args m') :
    Pauses inner (.tree (.protect body clauses cleanup)) env m op args m'
  | cleanup {inner env m m₁ m' op args} {body e : Expr} {clauses : List (Clause Expr)}
    {r : Ended Yield} (hn : (Expr.protect body clauses (some e)).Needs inner)
    (h : Direct .evaluated inner (.guarded body clauses) env none m r none m₁)
    (he : Pauses inner (.tree e) env m₁ op args m') :
    Pauses inner (.tree (.protect body clauses (some e))) env m op args m'
  | define {inner env m m' op args} {x : Symbol} {e : Expr} (hn : (Expr.define x e).Needs inner)
    (h : Pauses inner (.tree e) env m op args m') :
    Pauses inner (.tree (.define x e)) env m op args m'
  -- trees in turn
  | treesHead {inner env m m' op args} {e : Expr} {es : List Expr}
    (h : Pauses inner (.tree e) env m op args m') :
    Pauses inner (.trees (e :: es)) env m op args m'
  | treesTail {inner env m m₁ m' op args} {e : Expr} {es : List Expr} {v : Value}
    (h : Direct .evaluated inner (.tree e) env none m (.ok (.value v)) none m₁)
    (hs : Pauses inner (.trees es) env m₁ op args m') :
    Pauses inner (.trees (e :: es)) env m op args m'
  | statementsLast {inner env m m' op args} {e : Expr}
    (h : Pauses inner (.tree e) env m op args m') :
    Pauses inner (.statements [e]) env m op args m'
  | statementsHead {inner env m m' op args} {e : Expr} {es : List Expr} (hne : es ≠ [])
    (h : Pauses inner (.tree e) env m op args m') :
    Pauses inner (.statements (e :: es)) env m op args m'
  | statementsTail {inner env m m₁ m' op args} {e : Expr} {es : List Expr} {v : Value}
    (hne : es ≠ [])
    (h : Direct .evaluated inner (.tree e) env none m (.ok (.value v)) none m₁)
    (hs : Pauses inner (.statements es) env m₁ op args m') :
    Pauses inner (.statements (e :: es)) env m op args m'
  | bindingsHead {inner env m m' op args} {x : Symbol} {e : Expr} {bs : List (Symbol × Expr)}
    (h : Pauses inner (.tree e) env m op args m') :
    Pauses inner (.bindings ((x, e) :: bs)) env m op args m'
  | bindingsTail {inner env m m₁ m' op args} {x : Symbol} {e : Expr} {bs : List (Symbol × Expr)}
    {v : Value} (h : Direct .evaluated inner (.tree e) env none m (.ok (.value v)) none m₁)
    (hs : Pauses inner (.bindings bs) ((x, v) :: env) m₁ op args m') :
    Pauses inner (.bindings ((x, e) :: bs)) env m op args m'
  -- the body of a loop
  | turn {inner env m m' op args} {scope : Env} {names : List Symbol} {body : Expr}
    (h : Pauses inner (.tree body) env m op args m') :
    Pauses inner (.iterate scope names body) env m op args m'
  | again {inner env m m₁ m' op args} {scope : Env} {names : List Symbol} {body : Expr}
    {vs : List Value}
    (h : Direct .evaluated inner (.tree body) env none m (.ok (.again vs)) none m₁)
    (hr : Pauses inner (.iterate scope names body) (scope.extend names vs) m₁ op args m') :
    Pauses inner (.iterate scope names body) env m op args m'
  -- a body and its clauses
  | guarded {inner env m m' op args} {body : Expr} {clauses : List (Clause Expr)}
    (h : Pauses inner (.tree body) env m op args m') :
    Pauses inner (.guarded body clauses) env m op args m'
  | clause {inner env m m₁ m' op args} {body : Expr} {clauses : List (Clause Expr)}
    {clause : Clause Expr} {d : Condition Value}
    (h : Direct .evaluated inner (.tree body) env none m (.error d) none m₁)
    (hclause : clauses.find? (·.selector.accepts (.condition d)) = some clause)
    (hr : Pauses inner (.tree clause.body) ((clause.var, .condition d) :: env) m₁ op args m') :
    Pauses inner (.guarded body clauses) env m op args m'

variable {own : Nat} {G : Aim} {U : Symbol → Prop} {inner : Bool} {t : Task} {env : Env}
  {m m₁ m' : Machine} {op : Value} {args : List Value} {r : Ended Yield}

/-- A part of a body comes to a first awaited call. -/
def Task.Suspends (inner : Bool) (t : Task) (env : Env) (m : Machine) : Prop :=
  ∃ op args m', Pauses inner t env m op args m'

/-- A part comes to a first awaited call when a part of it does. -/
theorem Task.Suspends.imp {t₁ : Task} {env₁ : Env} {inner₁ : Bool} (h : t₁.Suspends inner₁ env₁ m₁)
    (hpauses : ∀ {op args m'}, Pauses inner₁ t₁ env₁ m₁ op args m' →
      Pauses inner t env m op args m') :
  t.Suspends inner env m
  := by
  obtain ⟨op, args, m', h⟩ := h
  exact ⟨op, args, m', hpauses h⟩

/-- A run does not suspend, or it has come to a first awaited call. -/
theorem Direct.suspends {last last₁ : Option (Context Value)}
    (h : Direct .evaluated inner t env last m r last₁ m₁) (hlast : last = none) :
  last₁ = none ∨ t.Suspends inner env m
  := by
  induction h with
  | plain | treesNil | bindingsNil => exact .inl hlast
  | await hn h hr ih =>
    subst hlast
    obtain rfl | hs := ih rfl
    · obtain ⟨id, rest, rfl, -⟩ := Instrument.answerWith_eq hr
      exact .inr ⟨_, _, _, .await hn h⟩
    · exact .inr (hs.imp (.awaitArgs hn))
  -- one part is evaluated
  | awaitError hn h ih => exact (ih hlast).imp_right (·.imp (.awaitArgs hn))
  | call hn hf h hr hq ih => exact (ih hlast).imp_right (·.imp (.call hn hf))
  | callError hn hf h ih => exact (ih hlast).imp_right (·.imp (.call hn hf))
  | condError hn h ih => exact (ih hlast).imp_right (·.imp (.test hn))
  | seq hn h ih => exact (ih hlast).imp_right (·.imp (.seq hn))
  | bindError hn h ih => exact (ih hlast).imp_right (·.imp (.bindInit hn))
  | loopError hn h ih => exact (ih hlast).imp_right (·.imp (.loopInit hn))
  | recur hn h ih => exact (ih hlast).imp_right (·.imp (.recur hn))
  | recurError hn h ih => exact (ih hlast).imp_right (·.imp (.recur hn))
  | protect hn h ih => exact (ih hlast).imp_right (·.imp (.protect hn))
  | define hn h hx ih => exact (ih hlast).imp_right (·.imp (.define hn))
  | defineError hn h ih => exact (ih hlast).imp_right (·.imp (.define hn))
  | treesHead h ih => exact (ih hlast).imp_right (·.imp .treesHead)
  | statementsLast h ih => exact (ih hlast).imp_right (·.imp .statementsLast)
  | statementsHead hne h ih => exact (ih hlast).imp_right (·.imp (.statementsHead hne))
  | bindingsHead h ih => exact (ih hlast).imp_right (·.imp .bindingsHead)
  | done h ih => exact (ih hlast).imp_right (·.imp .turn)
  | passed h ih => exact (ih hlast).imp_right (·.imp .guarded)
  | uncaught h hclause ih => exact (ih hlast).imp_right (·.imp .guarded)
  -- two parts are evaluated, one after the other
  | cond hn h h' ih ih' =>
    subst hlast
    obtain rfl | hs := ih rfl
    · exact (ih' rfl).imp_right (·.imp (.branch hn h))
    · exact .inr (hs.imp (.test hn))
  | bind hn h h' ih ih' =>
    subst hlast
    obtain rfl | hs := ih rfl
    · exact (ih' rfl).imp_right (·.imp (.bind hn h))
    · exact .inr (hs.imp (.bindInit hn))
  | loop hn h h' ih ih' =>
    subst hlast
    obtain rfl | hs := ih rfl
    · exact (ih' rfl).imp_right (·.imp (.loop hn h))
    · exact .inr (hs.imp (.loopInit hn))
  | cleanup hn h h' ih ih' =>
    subst hlast
    obtain rfl | hs := ih rfl
    · exact (ih' rfl).imp_right (·.imp (.cleanup hn h))
    · exact .inr (hs.imp (.protect hn))
  | cleanupError hn h h' ih ih' =>
    subst hlast
    obtain rfl | hs := ih rfl
    · exact (ih' rfl).imp_right (·.imp (.cleanup hn h))
    · exact .inr (hs.imp (.protect hn))
  | treesCons h h' ih ih' =>
    subst hlast
    obtain rfl | hs := ih rfl
    · exact (ih' rfl).imp_right (·.imp (.treesTail h))
    · exact .inr (hs.imp .treesHead)
  | treesTail h h' ih ih' =>
    subst hlast
    obtain rfl | hs := ih rfl
    · exact (ih' rfl).imp_right (·.imp (.treesTail h))
    · exact .inr (hs.imp .treesHead)
  | statementsCons hne h h' ih ih' =>
    subst hlast
    obtain rfl | hs := ih rfl
    · exact (ih' rfl).imp_right (·.imp (.statementsTail hne h))
    · exact .inr (hs.imp (.statementsHead hne))
  | bindingsCons h h' ih ih' =>
    subst hlast
    obtain rfl | hs := ih rfl
    · exact (ih' rfl).imp_right (·.imp (.bindingsTail h))
    · exact .inr (hs.imp .bindingsHead)
  | caught h hclause h' ih ih' =>
    subst hlast
    obtain rfl | hs := ih rfl
    · exact (ih' rfl).imp_right (·.imp (.clause h hclause))
    · exact .inr (hs.imp .guarded)
  | again h henters h' ih ih' =>
    subst hlast
    obtain rfl | hs := ih rfl
    · obtain rfl := henters
      exact (ih' rfl).imp_right (·.imp (.again h))
    · exact .inr (hs.imp .turn)

/-! ### The code of what comes to an awaited call -/

/-- A tree that comes to an awaited call has to be lowered. -/
theorem Pauses.needs {e : Expr} (h : Pauses inner (.tree e) env m op args m') :
  e.Needs inner
  := by
  cases h <;> assumption

/-- Of trees in turn that come to an awaited call, one has to be lowered. -/
theorem Pauses.exists_needs {es : List Expr} (h : Pauses inner (.trees es) env m op args m') :
  ∃ e ∈ es, e.Needs inner
  := by
  induction es generalizing m with
  | nil => cases h
  | cons e es ih =>
    cases h with
    | treesHead h => exact ⟨e, List.mem_cons_self, h.needs⟩
    | treesTail _ hs =>
      obtain ⟨e', hmem, hn⟩ := ih hs
      exact ⟨e', List.mem_cons_of_mem e hmem, hn⟩

namespace Machine

/-- A machine that is alike to no other one. -/
def gone : Machine := { empty with limit := some 0 }

/-- Nothing goes on from a machine that is alike to no other one. -/
theorem not_alike_gone {W : World} :
  ¬ Machine.Alike own 0 W gone m'
  := by
  intro h
  cases h.limit

/-- The two continuations that an awaited call hands to its operation. -/
def continuations (m : Machine) (k f : Value) : List Value :=
  [.native (.awaitContinuation m.nextId m.context k),
    .native (.awaitFailure (m.nextId + 1) m.context f)]

end Machine

/-- The operation of an awaited call gives a value from which the run goes on, whatever the
continuations are that it is called with, on a machine alike to the one of the call. -/
def Value.Operates (own : Nat) (G : Aim) (op : Value) (args : List Value) (m : Machine) : Prop :=
  ∀ {W m' op' args' k f}, Machine.Alike own 0 W m m' → Value.Alike W op op' →
    List.Forall₂ (Value.Alike W) args args' →
    op'.Delivers G none (args' ++ m'.continuations k f) m'.suspending

variable {d : Condition Value}

/-- Every run of a tree is followed from a machine that is alike to no other one. -/
theorem Expr.Followed.of_gone {e : Expr} {last last₁ : Option (Context Value)} :
  e.Followed own G U inner env last .gone r last₁ m₁
  := by
  intro W m' env' wrap t t' s code x hs hfit hm
  exact absurd hm Machine.not_alike_gone

/-- An awaited call whose operation gives a value is followed up to there. -/
theorem Expr.Followed.await_pauses {es : List Expr}
    (hn : (Expr.call (.var "await") es).Needs inner)
    (hes : Expr.AllFollowed own G U inner es env none m (.ok (op :: args)) none m₁)
    (hop : op.Operates own G args m₁) :
  (Expr.call (.var "await") es).Followed own G U inner env none m (.error d) none .gone
  := by
  intro W m' env' wrap t t' s code x hs hfit hm hlast htake hcode
  rw [handOver_of_needs hs hn, lower] at hcode
  refine hes hs hfit hm hlast htake ?_ .nil (fun _ _ => Compiling.grows_ofExcept _) ?_ hcode
  · intro c hc
    cases hc
  apply Finishes.of_ok
  intro W' t t' s trees code env' wrap m' m₁' vs' hW hs hk hfit hcode hall hvs hm₁ hlast
  obtain _ | ⟨hop', hargs⟩ := hvs
  obtain ⟨e, es, rfl⟩ := hall.exists_cons
  obtain ⟨hcode, -⟩ := Compiling.ofExcept_eq_ok_iff.1 hcode
  cases hcode
  obtain _ | ⟨he, hes⟩ := hall
  cases hlast
  apply Expr.Reaches.completes
  apply (hop hm₁ hop' hargs).call
  exact .cons he (hes.append
    (allEnd_continuations hfit.success.lookup hfit.failure.lookup m₁'))

/-- Trees of which the first one comes to an awaited call are followed. -/
theorem Expr.AllFollowed.of_pauses {tail : Bool} {e : Expr} {es : List Expr}
    (hbody : e.InBody U tail) (h : Pauses inner (.tree e) env m op args m')
    (he : e.Followed own G U inner env none m (.error d) none .gone) :
  Expr.AllFollowed own G U inner (e :: es) env none m (.error d) none .gone
  := Expr.AllFollowed.head hbody.user he (absurd h.needs) ⟨e, List.mem_cons_self, h.needs⟩

/-- Code follows a run up to an awaited call whose operation gives a value. -/
theorem Pauses.followed (h : Pauses inner t env m op args m') (hbody : t.InBody U)
    (hop : op.Operates own G args m') :
  t.Followed own G U inner env none m (.error d) none .gone
  := by
  induction h with
  -- calls
  | await hn h =>
    obtain ⟨tail, hbody⟩ := hbody
    exact Expr.Followed.await_pauses hn (h.followed hbody.await_args .evaluated).values hop
  | awaitArgs hn h ih =>
    obtain ⟨tail, hbody⟩ := hbody
    exact Expr.Followed.await_error hn (ih hbody.await_args hop).trees_error
  | call hn hf h ih =>
    obtain ⟨tail, hbody⟩ := hbody
    cases hbody with
    | await => exact absurd rfl hf
    | call hfb hargs =>
      exact Expr.Followed.call_error hn hf (ih (List.forall_mem_cons.2 ⟨hfb, hargs⟩) hop).trees_error
  -- conditionals, sequences and bindings
  | test hn h ih =>
    obtain ⟨tail, hbody⟩ := hbody
    cases hbody with | cond htb hyes hno
    exact Expr.Followed.cond_error hn (Expr.AllFollowed.of_pauses htb h (ih ⟨false, htb⟩ hop))
  | branch hn htest h ih =>
    obtain ⟨tail, hbody⟩ := hbody
    cases hbody with | cond htb hyes hno
    exact Expr.Followed.cond hn
      (Expr.Followed.all htb htest (htest.followed ⟨false, htb⟩ .evaluated))
      (ih (Expr.InBody.branch hyes hno) hop)
  | seq hn h ih =>
    obtain ⟨tail, hbody⟩ := hbody
    cases hbody with | seq hes hlast
    exact Expr.Followed.seq hn (ih (Expr.InBody.of_seq hes hlast) hop)
  | bindInit hn h ih =>
    obtain ⟨tail, hbody⟩ := hbody
    cases hbody with | bind hx hbsb hbody
    exact Expr.Followed.bind_error hn (ih ⟨hx, hbsb⟩ hop).bindings_error
  | bind hn hbs h ih =>
    obtain ⟨tail, hbody⟩ := hbody
    cases hbody with | bind hx hbsb hbody
    exact Expr.Followed.bind hn (hbs.followed ⟨hx, hbsb⟩ .evaluated).scope (ih ⟨tail, hbody⟩ hop)
  -- loops
  | loopInit hn h ih =>
    obtain ⟨tail, hbody⟩ := hbody
    cases hbody with | loop hx hbsb hbody
    exact Expr.Followed.loop_error hn (ih ⟨hx, hbsb⟩ hop).bindings_error
  | loop hn hbs h ih =>
    obtain ⟨tail, hbody⟩ := hbody
    cases hbody with | loop hx hbsb hbody
    exact Expr.Followed.loop hn hx hbs (hbs.followed ⟨hx, hbsb⟩ .evaluated).scope
      (ih ⟨List.forall_mem_map.2 hx, hbody⟩ hop rfl)
  | recur hn h ih =>
    obtain ⟨tail, hbody⟩ := hbody
    cases hbody with | recur hes
    exact Expr.Followed.recur_error hn (ih hes hop).trees_error
  -- protected bodies and definitions
  | protect hn h ih =>
    obtain ⟨tail, hbody⟩ := hbody
    cases hbody with | protect hb hx hclauses hcleanup
    obtain ⟨s, s', last₂, m₂, hr, hb, hcatches⟩ := ih ⟨hb, hx, hclauses⟩ hop
    rw [hr]
    exact Expr.Followed.protect hn hb hcatches (.gone fun _ _ => Machine.not_alike_gone)
  | cleanup hn h he ih =>
    obtain ⟨tail, hbody⟩ := hbody
    cases hbody with | protect hb hx hclauses hcleanup
    obtain ⟨s, s', last₂, m₂, rfl, hb, hcatches⟩ := h.followed ⟨hb, hx, hclauses⟩ .evaluated
    exact Expr.Followed.protect_error hn hb hcatches
      (.error (hcleanup _ rfl).user (absurd he.needs) (ih ⟨false, hcleanup _ rfl⟩ hop))
  | define hn h ih =>
    obtain ⟨tail, hbody⟩ := hbody
    cases hbody with | define x he
    exact Expr.Followed.define_error hn (Expr.AllFollowed.of_pauses he h (ih ⟨false, he⟩ hop))
  -- trees in turn
  | treesHead h ih =>
    obtain ⟨he, -⟩ := List.forall_mem_cons.1 hbody
    exact ⟨.error d, rfl, Expr.AllFollowed.of_pauses he h (ih ⟨false, he⟩ hop)⟩
  | treesTail h hs ih =>
    obtain ⟨he, hes⟩ := List.forall_mem_cons.1 hbody
    obtain ⟨e', hmem, hn⟩ := hs.exists_needs
    refine ⟨.error d, rfl, ?_⟩
    exact Expr.AllFollowed.cons he.user (h.followed ⟨false, he⟩ .evaluated) h.ends_of_not_needs
      (ih hes hop).trees_error ⟨e', List.mem_cons_of_mem _ hmem, hn⟩
  | statementsLast h ih =>
    obtain ⟨tail, he⟩ := hbody _ List.mem_cons_self
    exact Expr.StatementsFollowed.single he.user (absurd h.needs) (ih ⟨tail, he⟩ hop)
  | statementsHead hne h ih =>
    obtain ⟨tail, he⟩ := hbody _ List.mem_cons_self
    exact Expr.StatementsFollowed.head hne he.user (absurd h.needs) (ih ⟨tail, he⟩ hop)
  | statementsTail hne h hs ih =>
    obtain ⟨⟨tail, he⟩, hes⟩ := List.forall_mem_cons.1 hbody
    exact Expr.StatementsFollowed.cons hne he.user h.ends_of_not_needs
      (h.followed ⟨tail, he⟩ .evaluated) (ih hes hop)
  | bindingsHead h ih =>
    obtain ⟨he, -⟩ := List.forall_mem_cons.1 hbody.2
    exact ⟨.error d, rfl, Expr.BindingsFollowed.head he.user (absurd h.needs) (ih ⟨false, he⟩ hop)⟩
  | bindingsTail h hs ih =>
    obtain ⟨hx, hbs⟩ := hbody
    obtain ⟨hx, hxs⟩ := List.forall_mem_cons.1 hx
    obtain ⟨he, hbs⟩ := List.forall_mem_cons.1 hbs
    exact ⟨.error d, rfl, Expr.BindingsFollowed.cons hx he.user h.ends_of_not_needs
      (h.followed ⟨false, he⟩ .evaluated) (ih ⟨hxs, hbs⟩ hop).bindings_error⟩
  -- the body of a loop
  | turn h ih =>
    rintro rfl
    exact Expr.LoopFollowed.done (r := .error d) hbody.1 (ih ⟨true, hbody.2⟩ hop)
  | again h hr ih =>
    rintro rfl
    exact Expr.LoopFollowed.again hbody.1 (h.followed ⟨true, hbody.2⟩ .evaluated)
      (ih hbody hop rfl)
  -- a body and its clauses
  | @guarded inner env m m' op args body clauses h ih =>
    obtain ⟨hb, hx, hclauses⟩ := hbody
    refine ⟨.error d, .error d, none, .gone, rfl, ih ⟨false, hb⟩ hop, ?_⟩
    cases hclause : clauses.find? (·.selector.accepts (.condition d)) with
    | none => exact .uncaught hclause
    | some clause =>
      exact .caught (r := .error d) (hx _ (List.mem_of_find?_eq_some hclause)) hclause
        Expr.Followed.of_gone
  | clause h hclause hr ih =>
    obtain ⟨hb, hx, hclauses⟩ := hbody
    have hmem := List.mem_of_find?_eq_some hclause
    exact ⟨.error _, .error d, _, _, rfl, h.followed ⟨false, hb⟩ .evaluated,
      .caught (hx _ hmem) hclause (ih ⟨false, hclauses _ hmem⟩ hop)⟩

end Skein
