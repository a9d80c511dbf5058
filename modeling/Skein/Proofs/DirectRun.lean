import Skein.Coroutine.Lowering
import Skein.Proofs.Alike
import Skein.Proofs.Evaluation

/-!
# Runs without suspension

How the body of a coroutine is evaluated when nothing suspends: an awaited call of the
operation of the stage has the value, or raises the condition, that the stage delivers.
The run is taken apart where the body is: a tree that need not be lowered is evaluated at
once, and any other one by its parts.

Lowered code can follow a run in which a tree that need not be lowered leaves nothing
behind, neither work in a level of the trampoline nor a delivery of the stage.  It enters
a lowered loop anew in the context of the last suspension, and so it does what the
evaluator does where that is the context in force.
-/

namespace Skein

open Coroutine (Table)

/-- A tree that can stand in a body: it mentions only names of `U` outside of the calls of
`await`, binds only such names, and enters loops anew only where `tail` says that it is in
the tail of one. -/
inductive Expr.InBody (U : Symbol → Prop) : (tail : Bool) → Expr → Prop where
  | literal {tail : Bool} (d : Datum) : InBody U tail (.literal d)
  | builtin {tail : Bool} (b : Builtin) : InBody U tail (.builtin b)
  | var {tail : Bool} {x : Symbol} (hx : U x) : InBody U tail (.var x)
  | lambda {tail : Bool} {name : Option Symbol} {params : List Symbol} {body : Expr}
    (h : ∀ x, body.Mentions x → U x) : InBody U tail (.lambda name params body)
  | call {tail : Bool} {f : Expr} {args : List Expr} (hf : InBody U false f)
    (hargs : ∀ a ∈ args, InBody U false a) : InBody U tail (.call f args)
  | await {tail : Bool} {args : List Expr} (hargs : ∀ a ∈ args, InBody U false a) :
    InBody U tail (.call (.var "await") args)
  | cond {tail : Bool} {test yes no : Expr} (htest : InBody U false test)
    (hyes : InBody U tail yes) (hno : InBody U tail no) : InBody U tail (.cond test yes no)
  | seq {tail : Bool} {es : List Expr} (hes : ∀ e ∈ es.dropLast, InBody U false e)
    (hlast : ∀ e ∈ es.getLast?, InBody U tail e) : InBody U tail (.seq es)
  | bind {tail : Bool} {bs : List (Symbol × Expr)} {body : Expr} (hx : ∀ b ∈ bs, U b.1)
    (hbs : ∀ b ∈ bs, InBody U false b.2) (hbody : InBody U tail body) :
    InBody U tail (.bind bs body)
  | loop {tail : Bool} {bs : List (Symbol × Expr)} {body : Expr} (hx : ∀ b ∈ bs, U b.1)
    (hbs : ∀ b ∈ bs, InBody U false b.2) (hbody : InBody U true body) :
    InBody U tail (.loop bs body)
  | recur {es : List Expr} (hes : ∀ e ∈ es, InBody U false e) : InBody U true (.recur es)
  | protect {tail : Bool} {body : Expr} {clauses : List (Clause Expr)} {cleanup : Option Expr}
    (hbody : InBody U false body) (hx : ∀ clause ∈ clauses, U clause.var)
    (hclauses : ∀ clause ∈ clauses, InBody U false clause.body)
    (hcleanup : ∀ e ∈ cleanup, InBody U false e) :
    InBody U tail (.protect body clauses cleanup)
  | define {tail : Bool} (x : Symbol) {e : Expr} (he : InBody U false e) :
    InBody U tail (.define x e)

/-- What a part of a run gives. -/
inductive Yield where
  | value (v : Value)
  /-- Enter the loop anew with these values. -/
  | again (vs : List Value)
  /-- The values of some trees. -/
  | values (vs : List Value)
  /-- The scope inside some bindings. -/
  | scope (env : Env)

/-- A part of a body that is evaluated. -/
inductive Task where
  | tree (e : Expr)
  /-- Trees for their values. -/
  | trees (es : List Expr)
  /-- Trees for the value of the last one. -/
  | statements (es : List Expr)
  | bindings (bs : List (Symbol × Expr))
  /-- The body of a loop that stands in a scope, until it is not entered anew. -/
  | iterate (scope : Env) (names : List Symbol) (body : Expr)
  /-- A body and the clause that accepts its condition. -/
  | guarded (body : Expr) (clauses : List (Clause Expr))

/-- Whether a tree has to be lowered, inside of a lowered loop or outside of all. -/
def Expr.Needs (inner : Bool) (e : Expr) : Prop :=
  (e.reaches Table.default.has || (inner && e.recurs)) = true

/-- Whether a tree has to be lowered can be decided. -/
instance (inner : Bool) (e : Expr) : Decidable (e.Needs inner) :=
  inferInstanceAs (Decidable (_ = true))

/-- Nothing is left behind: neither work in the levels nor deliveries of the stage. -/
structure Quiet (m m' : Machine) : Prop where
  levels : m'.levels = m.levels
  pending : m'.stage.pending = m.stage.pending

/-- The context is that of the last suspension, if there was one. -/
def Steady (last : Option (Context Value)) (m : Machine) : Prop := ∀ c ∈ last, c = m.context

/-- The machine in the context of the last suspension, if there was one. -/
def Machine.backIn (m : Machine) : Option (Context Value) → Machine
  | none => m
  | some c => { m with context := c }

/-- The manner in which a body is evaluated. -/
structure Manner where
  /-- What a tree that is evaluated at once may leave behind. -/
  leaves : Machine → Machine → Prop
  /-- On which machine a lowered loop goes on that is entered anew. -/
  enters : Option (Context Value) → Machine → Machine → Prop

namespace Manner

/-- The manner of the evaluator. -/
def evaluated : Manner where
  leaves _ _ := True
  enters _ m m' := m' = m

/-- The manner of the lowered code: work that waits gets in its way, and loops are entered
anew in the context of the last suspension. -/
def lowered : Manner where
  leaves := Quiet
  enters last m m' := m' = m.backIn last

/-- The manner in which lowered code does what the evaluator does. -/
def steady : Manner where
  leaves := Quiet
  enters last m m' := m' = m ∧ Steady last m

/-- What is done in one manner is done in another one. -/
structure Within (manner manner' : Manner) : Prop where
  leaves : ∀ {m m'}, manner.leaves m m' → manner'.leaves m m'
  enters : ∀ {last m m'}, manner.enters last m m' → manner'.enters last m m'

/-- A steady run is an evaluation. -/
theorem steady_within_evaluated :
  steady.Within evaluated
  where
  leaves _ := trivial
  enters h := h.1

/-- A steady run is a run of the lowered code. -/
theorem steady_within_lowered :
  steady.Within lowered
  where
  leaves h := h
  enters := by
    rintro last m m' ⟨rfl, hs⟩
    cases last with
    | none => rfl
    | some c =>
      obtain rfl := hs c rfl
      rfl

/-- A loop is entered anew steadily where the evaluator and the lowered code enter it on the
same machine. -/
theorem steady_enters_iff {last : Option (Context Value)} {m m' : Machine} :
  steady.enters last m m' ↔ evaluated.enters last m m' ∧ lowered.enters last m m'
  := by
  constructor
  · intro h
    exact ⟨steady_within_evaluated.enters h, steady_within_lowered.enters h⟩
  · rintro ⟨heval, hlow⟩
    refine ⟨heval, fun c hc => ?_⟩
    obtain rfl := Option.mem_def.1 hc
    have hback : m' = { m with context := c } := hlow
    exact congrArg Machine.context (hback.symm.trans heval)

end Manner

/-- A part of a body is evaluated in a scope, where `inner` says whether it is inside of a
lowered loop, and `last` and `last'` are the contexts of the last suspension before and
after it. -/
inductive Direct (manner : Manner) : (inner : Bool) → Task → Env →
    (last : Option (Context Value)) → Machine → Ended Yield →
    (last' : Option (Context Value)) → Machine → Prop where
  -- trees that need not be lowered
  | plain {inner env last m m'} {e : Expr} {r : Ended Value} (hn : ¬ e.Needs inner)
    (h : e.Ends env m r m') (hq : manner.leaves m m') :
    Direct manner inner (.tree e) env last m (r.map .value) last m'
  -- calls
  | await {inner env last last' m m₁ m'} {args : List Expr} {vs : List Value} {r : Ended Value}
    (hn : (Expr.call (.var "await") args).Needs inner)
    (h : Direct manner inner (.trees args) env last m (.ok (.values vs)) last' m₁)
    (hr : (Instrument.answerWith vs).Gives m₁ r m') :
    Direct manner inner (.tree (.call (.var "await") args)) env last m (r.map .value)
      (some m₁.context) m'
  | awaitError {inner env last last' m m'} {args : List Expr} {d : Condition Value}
    (hn : (Expr.call (.var "await") args).Needs inner)
    (h : Direct manner inner (.trees args) env last m (.error d) last' m') :
    Direct manner inner (.tree (.call (.var "await") args)) env last m (.error d) last' m'
  | call {inner env last last' m m₁ m'} {f : Expr} {args : List Expr} {g : Value}
    {vs : List Value} {r : Ended Value} (hn : (Expr.call f args).Needs inner)
    (hf : f ≠ .var "await")
    (h : Direct manner inner (.trees (f :: args)) env last m (.ok (.values (g :: vs))) last' m₁)
    (hr : g.CallEnds vs m₁ r m') (hq : manner.leaves m₁ m') :
    Direct manner inner (.tree (.call f args)) env last m (r.map .value) last' m'
  | callError {inner env last last' m m'} {f : Expr} {args : List Expr} {d : Condition Value}
    (hn : (Expr.call f args).Needs inner) (hf : f ≠ .var "await")
    (h : Direct manner inner (.trees (f :: args)) env last m (.error d) last' m') :
    Direct manner inner (.tree (.call f args)) env last m (.error d) last' m'
  -- conditionals, sequences and bindings
  | cond {inner env last last₁ last' m m₁ m'} {test yes no : Expr} {v : Value} {r : Ended Yield}
    (hn : (Expr.cond test yes no).Needs inner)
    (htest : Direct manner inner (.tree test) env last m (.ok (.value v)) last₁ m₁)
    (h : Direct manner inner (.tree (if v.isTruthy then yes else no)) env last₁ m₁ r last' m') :
    Direct manner inner (.tree (.cond test yes no)) env last m r last' m'
  | condError {inner env last last' m m'} {test yes no : Expr} {d : Condition Value}
    (hn : (Expr.cond test yes no).Needs inner)
    (htest : Direct manner inner (.tree test) env last m (.error d) last' m') :
    Direct manner inner (.tree (.cond test yes no)) env last m (.error d) last' m'
  | seq {inner env last last' m m'} {es : List Expr} {r : Ended Yield}
    (hn : (Expr.seq es).Needs inner)
    (h : Direct manner inner (.statements es) env last m r last' m') :
    Direct manner inner (.tree (.seq es)) env last m r last' m'
  | bind {inner env env₁ last last₁ last' m m₁ m'} {bs : List (Symbol × Expr)} {body : Expr}
    {r : Ended Yield} (hn : (Expr.bind bs body).Needs inner)
    (hbs : Direct manner inner (.bindings bs) env last m (.ok (.scope env₁)) last₁ m₁)
    (h : Direct manner inner (.tree body) env₁ last₁ m₁ r last' m') :
    Direct manner inner (.tree (.bind bs body)) env last m r last' m'
  | bindError {inner env last last' m m'} {bs : List (Symbol × Expr)} {body : Expr}
    {d : Condition Value} (hn : (Expr.bind bs body).Needs inner)
    (hbs : Direct manner inner (.bindings bs) env last m (.error d) last' m') :
    Direct manner inner (.tree (.bind bs body)) env last m (.error d) last' m'
  -- loops
  | loop {inner env env₁ last last₁ last' m m₁ m'} {bs : List (Symbol × Expr)} {body : Expr}
    {r : Ended Yield} (hn : (Expr.loop bs body).Needs inner)
    (hbs : Direct manner inner (.bindings bs) env last m (.ok (.scope env₁)) last₁ m₁)
    (h : Direct manner true (.iterate env (bs.map (·.1)) body) env₁ last₁ m₁ r last' m') :
    Direct manner inner (.tree (.loop bs body)) env last m r last' m'
  | loopError {inner env last last' m m'} {bs : List (Symbol × Expr)} {body : Expr}
    {d : Condition Value} (hn : (Expr.loop bs body).Needs inner)
    (hbs : Direct manner inner (.bindings bs) env last m (.error d) last' m') :
    Direct manner inner (.tree (.loop bs body)) env last m (.error d) last' m'
  | recur {inner env last last' m m'} {es : List Expr} {vs : List Value}
    (hn : (Expr.recur es).Needs inner)
    (h : Direct manner inner (.trees es) env last m (.ok (.values vs)) last' m') :
    Direct manner inner (.tree (.recur es)) env last m (.ok (.again vs)) last' m'
  | recurError {inner env last last' m m'} {es : List Expr} {d : Condition Value}
    (hn : (Expr.recur es).Needs inner)
    (h : Direct manner inner (.trees es) env last m (.error d) last' m') :
    Direct manner inner (.tree (.recur es)) env last m (.error d) last' m'
  -- protected bodies and definitions
  | protect {inner env last last' m m'} {body : Expr} {clauses : List (Clause Expr)}
    {r : Ended Yield} (hn : (Expr.protect body clauses none).Needs inner)
    (h : Direct manner inner (.guarded body clauses) env last m r last' m') :
    Direct manner inner (.tree (.protect body clauses none)) env last m r last' m'
  | cleanup {inner env last last₁ last' m m₁ m'} {body e : Expr} {clauses : List (Clause Expr)}
    {r : Ended Yield} {v : Value} (hn : (Expr.protect body clauses (some e)).Needs inner)
    (h : Direct manner inner (.guarded body clauses) env last m r last₁ m₁)
    (he : Direct manner inner (.tree e) env last₁ m₁ (.ok (.value v)) last' m') :
    Direct manner inner (.tree (.protect body clauses (some e))) env last m r last' m'
  | cleanupError {inner env last last₁ last' m m₁ m'} {body e : Expr}
    {clauses : List (Clause Expr)} {r : Ended Yield} {d : Condition Value}
    (hn : (Expr.protect body clauses (some e)).Needs inner)
    (h : Direct manner inner (.guarded body clauses) env last m r last₁ m₁)
    (he : Direct manner inner (.tree e) env last₁ m₁ (.error d) last' m') :
    Direct manner inner (.tree (.protect body clauses (some e))) env last m (.error d) last' m'
  | define {inner env last last' m m₁ m'} {x : Symbol} {e : Expr} {v : Value}
    (hn : (Expr.define x e).Needs inner)
    (h : Direct manner inner (.tree e) env last m (.ok (.value v)) last' m₁)
    (hx : (Run.define x v).Gives m₁ (.ok ()) m') :
    Direct manner inner (.tree (.define x e)) env last m (.ok (.value v)) last' m'
  | defineError {inner env last last' m m'} {x : Symbol} {e : Expr} {d : Condition Value}
    (hn : (Expr.define x e).Needs inner)
    (h : Direct manner inner (.tree e) env last m (.error d) last' m') :
    Direct manner inner (.tree (.define x e)) env last m (.error d) last' m'
  -- trees in turn
  | treesNil {inner env last m} : Direct manner inner (.trees []) env last m (.ok (.values [])) last m
  | treesCons {inner env last last₁ last' m m₁ m'} {e : Expr} {es : List Expr} {v : Value}
    {vs : List Value} (h : Direct manner inner (.tree e) env last m (.ok (.value v)) last₁ m₁)
    (hs : Direct manner inner (.trees es) env last₁ m₁ (.ok (.values vs)) last' m') :
    Direct manner inner (.trees (e :: es)) env last m (.ok (.values (v :: vs))) last' m'
  | treesHead {inner env last last' m m'} {e : Expr} {es : List Expr} {d : Condition Value}
    (h : Direct manner inner (.tree e) env last m (.error d) last' m') :
    Direct manner inner (.trees (e :: es)) env last m (.error d) last' m'
  | treesTail {inner env last last₁ last' m m₁ m'} {e : Expr} {es : List Expr} {v : Value}
    {d : Condition Value}
    (h : Direct manner inner (.tree e) env last m (.ok (.value v)) last₁ m₁)
    (hs : Direct manner inner (.trees es) env last₁ m₁ (.error d) last' m') :
    Direct manner inner (.trees (e :: es)) env last m (.error d) last' m'
  | statementsLast {inner env last last' m m'} {e : Expr} {r : Ended Yield}
    (h : Direct manner inner (.tree e) env last m r last' m') :
    Direct manner inner (.statements [e]) env last m r last' m'
  | statementsCons {inner env last last₁ last' m m₁ m'} {e : Expr} {es : List Expr} {v : Value}
    {r : Ended Yield} (hne : es ≠ [])
    (h : Direct manner inner (.tree e) env last m (.ok (.value v)) last₁ m₁)
    (hs : Direct manner inner (.statements es) env last₁ m₁ r last' m') :
    Direct manner inner (.statements (e :: es)) env last m r last' m'
  | statementsHead {inner env last last' m m'} {e : Expr} {es : List Expr} {d : Condition Value}
    (hne : es ≠ []) (h : Direct manner inner (.tree e) env last m (.error d) last' m') :
    Direct manner inner (.statements (e :: es)) env last m (.error d) last' m'
  | bindingsNil {inner env last m} :
    Direct manner inner (.bindings []) env last m (.ok (.scope env)) last m
  | bindingsCons {inner env last last₁ last' m m₁ m'} {x : Symbol} {e : Expr}
    {bs : List (Symbol × Expr)} {v : Value} {r : Ended Yield}
    (h : Direct manner inner (.tree e) env last m (.ok (.value v)) last₁ m₁)
    (hs : Direct manner inner (.bindings bs) ((x, v) :: env) last₁ m₁ r last' m') :
    Direct manner inner (.bindings ((x, e) :: bs)) env last m r last' m'
  | bindingsHead {inner env last last' m m'} {x : Symbol} {e : Expr} {bs : List (Symbol × Expr)}
    {d : Condition Value} (h : Direct manner inner (.tree e) env last m (.error d) last' m') :
    Direct manner inner (.bindings ((x, e) :: bs)) env last m (.error d) last' m'
  -- the body of a loop
  | done {inner env last last' m m'} {scope : Env} {names : List Symbol} {body : Expr}
    {r : Ended Value} (h : Direct manner inner (.tree body) env last m (r.map .value) last' m') :
    Direct manner inner (.iterate scope names body) env last m (r.map .value) last' m'
  | again {inner env last last₁ last' m m₁ m₂ m'} {scope : Env} {names : List Symbol} {body : Expr}
    {vs : List Value} {r : Ended Yield}
    (h : Direct manner inner (.tree body) env last m (.ok (.again vs)) last₁ m₁)
    (hs : manner.enters last₁ m₁ m₂)
    (hr : Direct manner inner (.iterate scope names body) (scope.extend names vs) last₁ m₂ r
      last' m') :
    Direct manner inner (.iterate scope names body) env last m r last' m'
  -- a body and its clauses
  | passed {inner env last last' m m'} {body : Expr} {clauses : List (Clause Expr)} {v : Value}
    (h : Direct manner inner (.tree body) env last m (.ok (.value v)) last' m') :
    Direct manner inner (.guarded body clauses) env last m (.ok (.value v)) last' m'
  | caught {inner env last last₁ last' m m₁ m'} {body : Expr} {clauses : List (Clause Expr)}
    {clause : Clause Expr} {d : Condition Value} {r : Ended Value}
    (h : Direct manner inner (.tree body) env last m (.error d) last₁ m₁)
    (hclause : clauses.find? (·.selector.accepts (.condition d)) = some clause)
    (hr : Direct manner inner (.tree clause.body) ((clause.var, .condition d) :: env) last₁ m₁
      (r.map .value) last' m') :
    Direct manner inner (.guarded body clauses) env last m (r.map .value) last' m'
  | uncaught {inner env last last' m m'} {body : Expr} {clauses : List (Clause Expr)}
    {d : Condition Value} (h : Direct manner inner (.tree body) env last m (.error d) last' m')
    (hclause : clauses.find? (·.selector.accepts (.condition d)) = none) :
    Direct manner inner (.guarded body clauses) env last m (.error d) last' m'

/-- What is evaluated in one manner is evaluated in every manner that it is within. -/
theorem Direct.within {manner manner' : Manner} (hmanner : manner.Within manner') {inner : Bool}
    {t : Task} {env : Env} {last last' : Option (Context Value)} {m m' : Machine}
    {r : Ended Yield} (h : Direct manner inner t env last m r last' m') :
  Direct manner' inner t env last m r last' m'
  := by
  induction h with
  | plain hn h hq => exact .plain hn h (hmanner.leaves hq)
  | await hn _ hr ih => exact .await hn ih hr
  | awaitError hn _ ih => exact .awaitError hn ih
  | call hn hf _ hr hq ih => exact .call hn hf ih hr (hmanner.leaves hq)
  | callError hn hf _ ih => exact .callError hn hf ih
  | cond hn _ _ ihtest ih => exact .cond hn ihtest ih
  | condError hn _ ih => exact .condError hn ih
  | seq hn _ ih => exact .seq hn ih
  | bind hn _ _ ihbs ih => exact .bind hn ihbs ih
  | bindError hn _ ih => exact .bindError hn ih
  | loop hn _ _ ihbs ih => exact .loop hn ihbs ih
  | loopError hn _ ih => exact .loopError hn ih
  | recur hn _ ih => exact .recur hn ih
  | recurError hn _ ih => exact .recurError hn ih
  | protect hn _ ih => exact .protect hn ih
  | cleanup hn _ _ ih ihe => exact .cleanup hn ih ihe
  | cleanupError hn _ _ ih ihe => exact .cleanupError hn ih ihe
  | define hn _ hx ih => exact .define hn ih hx
  | defineError hn _ ih => exact .defineError hn ih
  | treesNil => exact .treesNil
  | treesCons _ _ ih ihs => exact .treesCons ih ihs
  | treesHead _ ih => exact .treesHead ih
  | treesTail _ _ ih ihs => exact .treesTail ih ihs
  | statementsLast _ ih => exact .statementsLast ih
  | statementsCons hne _ _ ih ihs => exact .statementsCons hne ih ihs
  | statementsHead hne _ ih => exact .statementsHead hne ih
  | bindingsNil => exact .bindingsNil
  | bindingsCons _ _ ih ihs => exact .bindingsCons ih ihs
  | bindingsHead _ ih => exact .bindingsHead ih
  | done _ ih => exact .done ih
  | again _ hs _ ih ihr => exact .again ih (hmanner.enters hs) ihr
  | passed _ ih => exact .passed ih
  | caught _ hclause _ ih ihr => exact .caught ih hclause ihr
  | uncaught _ hclause ih => exact .uncaught ih hclause

/-! ### Direct runs are evaluations -/

/-- The parts of a body that a task evaluates can stand in a body. -/
def Task.InBody (U : Symbol → Prop) : Task → Prop
  | tree e => ∃ tail, e.InBody U tail
  | trees es => ∀ e ∈ es, e.InBody U false
  | statements es => ∀ e ∈ es, ∃ tail, e.InBody U tail
  | bindings bs => (∀ b ∈ bs, U b.1) ∧ ∀ b ∈ bs, b.2.InBody U false
  | iterate _ names body => (∀ x ∈ names, U x) ∧ body.InBody U true
  | guarded body clauses => body.InBody U false ∧ (∀ clause ∈ clauses, U clause.var) ∧
      ∀ clause ∈ clauses, clause.body.InBody U false

/-- What a tree in the tail of a loop gives, as what a part of a run gives. -/
def Yield.ofTail : TailResult → Yield
  | .value v => value v
  | .again vs => again vs

/-- Evaluating the parts of a body that a task stands for ends. -/
def Task.Ends (env : Env) (m : Machine) (r : Ended Yield) (m' : Machine) : Task → Prop
  | tree e => ∃ s : Ended TailResult, r = s.map .ofTail ∧ e.TailEnds env m s m'
  | trees es => ∃ s : Ended (List Value), r = s.map .values ∧ Expr.AllEnd env es m s m'
  | statements es => ∃ s : Ended TailResult, r = s.map .ofTail ∧
      Expr.StatementsEnd env es m s m'
  | bindings bs => ∃ s : Ended Env, r = s.map .scope ∧ Expr.BindingsEnd env bs m s m'
  | iterate scope names body => ∃ s : Ended Value, r = s.map .value ∧
      Expr.LoopEnds scope names body env m s m'
  | guarded body clauses => ∃ s : Ended Value, r = s.map .value ∧
      Expr.GuardEnds env body clauses m s m'

/-- The scope of a task binds `await` to what the stage answers. -/
def Task.Answers (answer : Value) (env : Env) : Task → Prop
  | iterate scope _ _ => List.lookup "await" env = some answer ∧
      List.lookup "await" scope = some answer
  | _ => List.lookup "await" env = some answer

/-- A part of a run that raises a condition. -/
theorem Task.ends_tree_error {env : Env} {m m' : Machine} {e : Expr} {d : Condition Value}
    (h : e.Ends env m (.error d) m') :
  (Task.tree e).Ends env m (.error d) m'
  := ⟨.error d, rfl, h⟩

/-- A part of a run that gives a value, or raises a condition. -/
theorem Task.ends_tree {env : Env} {m m' : Machine} {e : Expr} {r : Ended Value}
    (h : e.Ends env m r m') :
  (Task.tree e).Ends env m (r.map .value) m'
  := by
  refine ⟨r.map .value, ?_, h⟩
  cases r <;> rfl

/-- A tree that gives a value. -/
theorem Task.Ends.value {env : Env} {m m' : Machine} {e : Expr} {v : Value}
    (h : (Task.tree e).Ends env m (.ok (.value v)) m') :
  e.Ends env m (.ok v) m'
  := by
  obtain ⟨s, hs, h⟩ := h
  rcases s with d | (w | ws) <;> cases hs
  exact h

/-- A tree that raises a condition. -/
theorem Task.Ends.error {env : Env} {m m' : Machine} {e : Expr} {d : Condition Value}
    (h : (Task.tree e).Ends env m (.error d) m') :
  e.Ends env m (.error d) m'
  := by
  obtain ⟨s, hs, h⟩ := h
  rcases s with d | (w | ws) <;> cases hs
  exact h

/-- A tree that gives a value, or raises a condition. -/
theorem Task.Ends.ended {env : Env} {m m' : Machine} {e : Expr} {r : Ended Value}
    (h : (Task.tree e).Ends env m (r.map .value) m') :
  e.Ends env m r m'
  := by
  cases r with
  | ok v => exact h.value
  | error d => exact h.error

/-- Trees that give values. -/
theorem Task.Ends.values {env : Env} {m m' : Machine} {es : List Expr} {vs : List Value}
    (h : (Task.trees es).Ends env m (.ok (.values vs)) m') :
  Expr.AllEnd env es m (.ok vs) m'
  := by
  obtain ⟨s, hs, h⟩ := h
  rcases s with d | ws <;> cases hs
  exact h

/-- Trees of which one raises a condition. -/
theorem Task.Ends.trees_error {env : Env} {m m' : Machine} {es : List Expr}
    {d : Condition Value} (h : (Task.trees es).Ends env m (.error d) m') :
  Expr.AllEnd env es m (.error d) m'
  := by
  obtain ⟨s, hs, h⟩ := h
  rcases s with d | ws <;> cases hs
  exact h

/-- Bindings that give a scope. -/
theorem Task.Ends.scope {env env' : Env} {m m' : Machine} {bs : List (Symbol × Expr)}
    (h : (Task.bindings bs).Ends env m (.ok (.scope env')) m') :
  Expr.BindingsEnd env bs m (.ok env') m'
  := by
  obtain ⟨s, hs, h⟩ := h
  rcases s with d | ws <;> cases hs
  exact h

/-- Bindings of which one raises a condition. -/
theorem Task.Ends.bindings_error {env : Env} {m m' : Machine} {bs : List (Symbol × Expr)}
    {d : Condition Value} (h : (Task.bindings bs).Ends env m (.error d) m') :
  Expr.BindingsEnd env bs m (.error d) m'
  := by
  obtain ⟨s, hs, h⟩ := h
  rcases s with d | ws <;> cases hs
  exact h

/-- A name of a body does not hide what the stage answers. -/
theorem lookup_await_cons {U : Symbol → Prop} (hU : ¬ U "await") {x : Symbol} (hx : U x)
    (v : Value) (env : Env) :
  List.lookup "await" ((x, v) :: env) = List.lookup "await" env
  := by
  rw [List.lookup_cons]
  split
  · rename_i heq
    rw [beq_iff_eq] at heq
    exact absurd (heq ▸ hx) hU
  · rfl

/-- The names of a loop do not hide what the stage answers. -/
theorem lookup_await_extend {U : Symbol → Prop} (hU : ¬ U "await") {names : List Symbol}
    (hx : ∀ x ∈ names, U x) (vs : List Value) (env : Env) :
  List.lookup "await" (env.extend names vs) = List.lookup "await" env
  := by
  rw [Env.extend, List.lookup_append]
  have hnone : List.lookup "await" (names.zip vs).reverse = none := by
    rw [List.lookup_eq_none_iff]
    rintro ⟨x, v⟩ hmem
    have hmem := (List.of_mem_zip (List.mem_reverse.1 hmem)).1
    rw [bne_iff_ne]
    intro heq
    exact hU (heq ▸ hx x hmem)
  rw [hnone]
  rfl

/-- The names of bindings do not hide what the stage answers. -/
theorem lookup_await_bindings {U : Symbol → Prop} (hU : ¬ U "await") {env env' : Env}
    {m m' : Machine} {bs : List (Symbol × Expr)} (hx : ∀ b ∈ bs, U b.1)
    (h : Expr.BindingsEnd env bs m (.ok env') m') :
  List.lookup "await" env' = List.lookup "await" env
  := by
  generalize hr : (Except.ok env' : Ended Env) = r at h
  induction h with
  | nil =>
    cases hr
    rfl
  | cons _ _ ih =>
    have hx := List.forall_mem_cons.1 hx
    rw [ih hx.2 hr, lookup_await_cons hU hx.1]
  | head => cases hr

/-- The trees of a sequence that can stand in a body can stand in it. -/
theorem Expr.InBody.of_seq {U : Symbol → Prop} {tail : Bool} {es : List Expr}
    (hes : ∀ e ∈ es.dropLast, e.InBody U false) (hlast : ∀ e ∈ es.getLast?, e.InBody U tail) :
  ∀ e ∈ es, ∃ tail, e.InBody U tail
  := by
  intro e he
  rcases List.eq_nil_or_concat es with rfl | ⟨before, last, rfl⟩
  · cases he
  · rw [List.concat_eq_append] at he hes hlast
    rw [List.dropLast_concat] at hes
    rw [List.getLast?_concat] at hlast
    rcases List.mem_append.1 he with he | he
    · exact ⟨false, hes e he⟩
    · rw [List.mem_singleton] at he
      exact ⟨tail, he ▸ hlast last rfl⟩

/-- The arguments of a call of `await` can stand in a body. -/
theorem Expr.InBody.await_args {U : Symbol → Prop} {tail : Bool} {args : List Expr}
    (h : (Expr.call (.var "await") args).InBody U tail) :
  ∀ a ∈ args, a.InBody U false
  := by
  cases h with
  | call hf hargs => exact hargs
  | await hargs => exact hargs

/-- A direct run is an evaluation in which `await` answers for the stage. -/
theorem Direct.ends {U : Symbol → Prop} (hU : ¬ U "await") {inner : Bool} {t : Task}
    {env : Env} {last last' : Option (Context Value)} {m m' : Machine} {r : Ended Yield}
    (h : Direct .evaluated inner t env last m r last' m') (hbody : t.InBody U) (id : Nat)
    (hanswer : t.Answers (.native (.instrument id .answer)) env) :
  t.Ends env m r m'
  := by
  induction h with
  | plain hn h hq => exact Task.ends_tree h
  | await hn h hr ih =>
    obtain ⟨tail, hbody⟩ := hbody
    apply Task.ends_tree
    apply Expr.ends_call (.cons (Expr.ends_var hanswer) (ih hbody.await_args hanswer).values)
    apply Expr.callEnds_native
    exact .of_forall fun c f => hr
  | awaitError hn h ih =>
    obtain ⟨tail, hbody⟩ := hbody
    apply Task.ends_tree_error
    exact Expr.ends_call_error
      (.tail (Expr.ends_var hanswer) (ih hbody.await_args hanswer).trees_error)
  | @call inner env last last' m m₁ m' f args g vs r hn hf h hr hq ih =>
    obtain ⟨tail, hbody⟩ := hbody
    cases hbody with
    | await => exact absurd rfl hf
    | call hfb hargs =>
      have hall := (ih (List.forall_mem_cons.2 ⟨hfb, hargs⟩) hanswer).values
      exact Task.ends_tree (Expr.ends_call hall hr)
  | @callError inner env last last' m m' f args d hn hf h ih =>
    obtain ⟨tail, hbody⟩ := hbody
    cases hbody with
    | await => exact absurd rfl hf
    | call hfb hargs =>
      have hall := (ih (List.forall_mem_cons.2 ⟨hfb, hargs⟩) hanswer).trees_error
      exact Task.ends_tree_error (Expr.ends_call_error hall)
  | @cond inner env last last₁ last' m m₁ m' test yes no v r hn htest h ihtest ih =>
    obtain ⟨tail, hbody⟩ := hbody
    cases hbody with | cond htb hyes hno
    have hbranch : ∃ tail, (if v.isTruthy then yes else no).InBody U tail := by
      split
      · exact ⟨tail, hyes⟩
      · exact ⟨tail, hno⟩
    obtain ⟨s, hs, h⟩ := ih hbranch hanswer
    exact ⟨s, hs, Expr.tailEnds_cond (ihtest ⟨false, htb⟩ hanswer).value h⟩
  | condError hn htest ih =>
    obtain ⟨tail, hbody⟩ := hbody
    cases hbody with | cond htb hyes hno
    exact Task.ends_tree_error (Expr.ends_cond_error (ih ⟨false, htb⟩ hanswer).error)
  | seq hn h ih =>
    obtain ⟨tail, hbody⟩ := hbody
    cases hbody with | seq hes hlast
    obtain ⟨s, hs, hends⟩ := ih (Expr.InBody.of_seq hes hlast) hanswer
    exact ⟨s, hs, hends.seq⟩
  | bind hn hbs h ihbs ih =>
    obtain ⟨tail, hbody⟩ := hbody
    cases hbody with | bind hx hbs hbody
    have hscope := (ihbs ⟨hx, hbs⟩ hanswer).scope
    obtain ⟨s, hs, hends⟩ :=
      ih ⟨tail, hbody⟩ ((lookup_await_bindings hU hx hscope).trans hanswer)
    exact ⟨s, hs, Expr.tailEnds_bind hscope hends⟩
  | bindError hn hbs ih =>
    obtain ⟨tail, hbody⟩ := hbody
    cases hbody with | bind hx hbs hbody
    exact Task.ends_tree_error (Expr.ends_bind_error (ih ⟨hx, hbs⟩ hanswer).bindings_error)
  | loop hn hbs h ihbs ih =>
    obtain ⟨tail, hbody⟩ := hbody
    cases hbody with | loop hx hbs hbody
    have hscope := (ihbs ⟨hx, hbs⟩ hanswer).scope
    obtain ⟨s, rfl, hends⟩ := ih ⟨List.forall_mem_map.2 hx, hbody⟩
      ⟨(lookup_await_bindings hU hx hscope).trans hanswer, hanswer⟩
    exact Task.ends_tree (Expr.ends_loop hscope hends)
  | loopError hn hbs ih =>
    obtain ⟨tail, hbody⟩ := hbody
    cases hbody with | loop hx hbs hbody
    exact Task.ends_tree_error (Expr.ends_loop_error (ih ⟨hx, hbs⟩ hanswer).bindings_error)
  | recur hn h ih =>
    obtain ⟨tail, hbody⟩ := hbody
    cases hbody with | recur hes
    exact ⟨.ok (.again _), rfl, Expr.tailEnds_recur (ih hes hanswer).values⟩
  | recurError hn h ih =>
    obtain ⟨tail, hbody⟩ := hbody
    cases hbody with | recur hes
    exact Task.ends_tree_error (Expr.ends_recur_error (ih hes hanswer).trees_error)
  | protect hn h ih =>
    obtain ⟨tail, hbody⟩ := hbody
    cases hbody with | protect hb hx hclauses hcleanup
    obtain ⟨s, rfl, hends⟩ := ih ⟨hb, hx, hclauses⟩ hanswer
    exact Task.ends_tree (Expr.ends_protect hends)
  | cleanup hn h he ih ihe =>
    obtain ⟨tail, hbody⟩ := hbody
    cases hbody with | protect hb hx hclauses hcleanup
    obtain ⟨s, rfl, hends⟩ := ih ⟨hb, hx, hclauses⟩ hanswer
    have he := (ihe ⟨false, hcleanup _ rfl⟩ hanswer).value
    exact Task.ends_tree (Expr.ends_protect_cleanup hends he)
  | cleanupError hn h he ih ihe =>
    obtain ⟨tail, hbody⟩ := hbody
    cases hbody with | protect hb hx hclauses hcleanup
    obtain ⟨s, rfl, hends⟩ := ih ⟨hb, hx, hclauses⟩ hanswer
    have he := (ihe ⟨false, hcleanup _ rfl⟩ hanswer).error
    exact Task.ends_tree_error (Expr.ends_protect_cleanup_error hends he)
  | define hn h hx ih =>
    obtain ⟨tail, hbody⟩ := hbody
    cases hbody with | define x he
    exact Task.ends_tree (r := .ok _) (Expr.ends_define (ih ⟨false, he⟩ hanswer).value hx)
  | defineError hn h ih =>
    obtain ⟨tail, hbody⟩ := hbody
    cases hbody with | define x he
    exact Task.ends_tree_error (Expr.ends_define_error (ih ⟨false, he⟩ hanswer).error)
  | treesNil => exact ⟨.ok [], rfl, .nil⟩
  | treesCons h hs ih ihs =>
    have hbody := List.forall_mem_cons.1 hbody
    exact ⟨.ok _, rfl, .cons (ih ⟨false, hbody.1⟩ hanswer).value (ihs hbody.2 hanswer).values⟩
  | treesHead h ih =>
    have hbody := List.forall_mem_cons.1 hbody
    exact ⟨.error _, rfl, .head (ih ⟨false, hbody.1⟩ hanswer).error⟩
  | treesTail h hs ih ihs =>
    have hbody := List.forall_mem_cons.1 hbody
    have h := (ih ⟨false, hbody.1⟩ hanswer).value
    exact ⟨.error _, rfl, .tail h (ihs hbody.2 hanswer).trees_error⟩
  | statementsLast h ih =>
    obtain ⟨s, hs, hends⟩ := ih (hbody _ List.mem_cons_self) hanswer
    exact ⟨s, hs, .last hends⟩
  | statementsCons hne h hs ih ihs =>
    have hbody := List.forall_mem_cons.1 hbody
    obtain ⟨s, hr, hends⟩ := ihs hbody.2 hanswer
    exact ⟨s, hr, .cons hne (ih hbody.1 hanswer).value hends⟩
  | statementsHead hne h ih =>
    have hbody := List.forall_mem_cons.1 hbody
    exact ⟨.error _, rfl, .head hne (ih hbody.1 hanswer).error⟩
  | bindingsNil => exact ⟨.ok _, rfl, .nil⟩
  | bindingsCons h hs ih ihs =>
    obtain ⟨hx, hbs⟩ := hbody
    have hx := List.forall_mem_cons.1 hx
    have hbs := List.forall_mem_cons.1 hbs
    have h := (ih ⟨false, hbs.1⟩ hanswer).value
    obtain ⟨s, rfl, hends⟩ := ihs ⟨hx.2, hbs.2⟩ ((lookup_await_cons hU hx.1 _ _).trans hanswer)
    exact ⟨s, rfl, .cons h hends⟩
  | bindingsHead h ih =>
    obtain ⟨hx, hbs⟩ := hbody
    have hbs := List.forall_mem_cons.1 hbs
    exact ⟨.error _, rfl, .head (ih ⟨false, hbs.1⟩ hanswer).error⟩
  | done h ih => exact ⟨_, rfl, .done (ih ⟨true, hbody.2⟩ hanswer.1).ended⟩
  | again h hs hr ih ihr =>
    obtain rfl := hs
    obtain ⟨s, hs, hends⟩ := ih ⟨true, hbody.2⟩ hanswer.1
    rcases s with d | (w | ws) <;> cases hs
    obtain ⟨s, rfl, hagain⟩ :=
      ihr hbody ⟨(lookup_await_extend hU hbody.1 _ _).trans hanswer.2, hanswer.2⟩
    exact ⟨s, rfl, .again hends hagain⟩
  | passed h ih =>
    exact ⟨.ok _, rfl, .passed (ih ⟨false, hbody.1⟩ hanswer).value⟩
  | caught h hclause hr ih ihr =>
    obtain ⟨hb, hx, hclauses⟩ := hbody
    have hmem := List.mem_of_find?_eq_some hclause
    have hr := (ihr ⟨false, hclauses _ hmem⟩
      ((lookup_await_cons hU (hx _ hmem) _ _).trans hanswer)).ended
    exact ⟨_, rfl, .caught (ih ⟨false, hb⟩ hanswer).error hclause hr⟩
  | uncaught h hclause ih =>
    exact ⟨.error _, rfl, .uncaught (ih ⟨false, hbody.1⟩ hanswer).error hclause⟩

end Skein
