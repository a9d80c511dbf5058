import Skein.Proofs.Fuel
import Skein.Proofs.Reentry.Lowering
import Skein.Proofs.Regime.Stock

/-!
# Evaluating orderly trees

`Expr.tailExactly` evaluates a tree as `Expr.tail` does, but cannot go on where a loop is
entered anew and a value is needed, or where a loop is entered anew with a wrong number of
values.  It does what `Expr.tail` does unless it stops there.  It does not stop there when the
tree is orderly, and neither do the calls that it makes when the bodies of all function
literals that they can come to are orderly.
-/

namespace Skein

open Run Trampoline

/-! ### Stopping at stray re-entries -/

/-- The fault of entering a loop anew where a value is needed. -/
def Eval.stray : String := "a loop is entered anew where a value is needed"

/-- The fault of entering a loop anew with a wrong number of values. -/
def Eval.miscounted : String := "a loop is entered anew with a wrong number of values"

/-- The value of a tree that is not in the tail of a loop, which cannot be entered anew. -/
def TailResult.onlyValue : TailResult → Run Value
  | value v => return v
  | again _ => Run.fault Eval.stray

/-- Repeat a loop as `Eval.repeatLoop` does, but enter it anew with one value for each of its
bindings only. -/
def Eval.repeatExactly (arity : Nat) (body : Env → Run TailResult) (enter : List Value → Env) :
    (fuel : Nat) → Env → Run TailResult
  | 0, _ => throw .exhausted
  | fuel + 1, env => do
    match ← body env with
    | .value v => return .value v
    | .again vs =>
      if vs.length = arity then repeatExactly arity body enter fuel (enter vs)
      else Run.fault Eval.miscounted

/-- Evaluate a tree in the tail of a loop as `Expr.tail` does, but enter loops anew only where
they may be. -/
def Expr.tailExactly (call : Call) : (fuel : Nat) → Env → Expr → Run TailResult
  | 0, _, _ => throw .exhausted
  | fuel + 1, env, e =>
    let eval := fun env e => do (← tailExactly call fuel env e).onlyValue
    match e with
    | .literal d => return .value (.ofDatum d)
    | .builtin b => return .value (.native (.builtin b))
    | .var x => return .value (← Run.lookup env x)
    | .lambda name params body =>
      return .value (.closure (← Run.freshId) name params body env)
    | .call f args => do
      let f ← eval env f
      let vs ← args.mapM (eval env)
      return .value (← call f vs)
    | .cond test yes no => do
      let v ← eval env test
      tailExactly call fuel env (if v.isTruthy then yes else no)
    | .seq es =>
      match es.getLast? with
      | none => return .value .nil
      | some last => do
        Eval.runAll eval env es.dropLast
        tailExactly call fuel env last
    | .bind bindings body => do
      let inner ← Eval.bindAll eval env bindings
      tailExactly call fuel inner body
    | .loop bindings body => do
      let first ← Eval.bindAll eval env bindings
      Eval.repeatExactly bindings.length (tailExactly call fuel · body)
        (env.extend (bindings.map (·.1))) fuel first
    | .recur args => return .again (← args.mapM (eval env))
    | .protect body clauses cleanup =>
      return .value (← Eval.protect eval env body clauses cleanup)
    | .define x e => do
      let v ← eval env e
      Run.define x v
      return .value v

/-- Evaluate a tree, but enter loops anew only where they may be. -/
def Expr.evalExactly (e : Expr) (call : Call) (fuel : Nat) (env : Env) : Run Value := do
  (← e.tailExactly call fuel env).onlyValue

/-- Call a function literal, but enter loops anew only where they may be. -/
def Eval.enterExactly (call : Call) (fuel : Nat) (f : Value) (name : Option Symbol)
    (params : List Symbol) (body : Expr) (env : Env) (args : List Value) : Run Value := do
  Run.checkArity (.exactly params.length) (name.getD "fn") args
  let scope : Env := match name with
    | some x => (x, f) :: env
    | none => env
  body.evalExactly call fuel (scope.extend params args)

/-- Call a value, but enter loops anew only where they may be. -/
def Value.callExactly : (fuel : Nat) → Call
  | 0, _, _ => throw .exhausted
  | fuel + 1, f, args =>
    match f with
    | .native g => g.apply (callExactly fuel) fuel args
    | .closure _ name params body env =>
      Eval.enterExactly (callExactly fuel) fuel f name params body env args
    | f => do
      Run.raise .typeError ("cannot call a " ++ f.typeName ++ ": " ++ (← Run.textOf f))

variable {α β : Type} {call call' : Call} {n : Nat} {env : Env} {e : Expr} {arity : Option Nat}

/-! ### The same, or stopped -/

/-- A computation does what another one does, unless it stops with one of some faults. -/
def Run.Unless (faults : List String) (act act' : Run α) : Prop :=
  ∀ m, (∃ message ∈ faults, ∃ m', act m = .error (.fault message) m') ∨ act m = act' m

/-- Computations that do what others do unless they stop with one of some faults. -/
def Run.unless (faults : List String) : Run.Congruence where
  rel := Unless faults
  fuel n n' := n = n'
  refl _ _ := .inr rfl
  bind h hk m := by
    rw [bind_apply, bind_apply]
    rcases h m with ⟨message, hmem, m', h⟩ | h
    · rw [h]
      exact .inl ⟨message, hmem, m', rfl⟩
    · rw [h]
      split
      · exact hk _ _
      · exact .inr rfl
  attempt h m := by
    unfold Run.attempt
    rcases h m with ⟨message, hmem, m', h⟩ | h
    · rw [h]
      exact .inl ⟨message, hmem, m', rfl⟩
    · rw [h]
      exact .inr rfl
  entering c h m := by
    unfold Run.entering
    dsimp only
    rcases h { m with context := c } with ⟨message, hmem, m', h⟩ | h
    · rw [h]
      exact .inl ⟨message, hmem, _, rfl⟩
    · rw [h]
      exact .inr rfl
  outside h m := by
    unfold Run.outside
    dsimp only
    rcases h { m with levels := [] } with ⟨message, hmem, m', h⟩ | h
    · rw [h]
      exact .inl ⟨message, hmem, _, rfl⟩
    · rw [h]
      exact .inr rfl
  stopped hn act h m := by
    subst hn
    rw [h]
    exact .inr rfl
  succ hn := ⟨_, hn.symm, rfl⟩

/-- The faults of stray re-entries. -/
def Eval.strayFaults : List String := [Eval.stray, Eval.miscounted]

/-- What is done unless a loop is entered anew where it may not be. -/
def Eval.strictly : Run.Congruence := Run.unless Eval.strayFaults

/-- A fault of a stray re-entry is the same as anything unless it stops so. -/
theorem Eval.strictly_fault {message : String} (h : message ∈ Eval.strayFaults)
    (act : Run α) :
  Eval.strictly.rel (Run.fault message) act
  := fun m => .inl ⟨message, h, m, rfl⟩

/-- The value of a tree, unless a loop is entered anew there. -/
theorem TailResult.onlyValue_strictly (r : TailResult) :
  Eval.strictly.rel r.onlyValue r.toValue
  := by
  cases r with
  | value v => exact Eval.strictly.refl _
  | again vs => exact Eval.strictly_fault List.mem_cons_self _

/-- Loops, unless they are entered anew with a wrong number of values. -/
theorem Eval.repeatExactly_strictly {body body' : Env → Run TailResult}
    (h : ∀ env, Eval.strictly.rel (body env) (body' env)) (arity : Nat)
    (enter : List Value → Env) (n : Nat) (env : Env) :
  Eval.strictly.rel (repeatExactly arity body enter n env) (repeatLoop body' enter n env)
  := by
  induction n generalizing env with
  | zero => exact Eval.strictly.refl _
  | succ n ih =>
    apply Eval.strictly.bind (h env)
    rintro (v | vs)
    · exact Eval.strictly.refl _
    · dsimp only
      split
      · exact ih _
      · exact Eval.strictly_fault (List.mem_cons_of_mem _ List.mem_cons_self) _

/-- Evaluation, unless a loop is entered anew where it may not be. -/
theorem Expr.tailExactly_strictly (h : Eval.strictly.Calls call call') (n : Nat) (env : Env)
    (e : Expr) :
  Eval.strictly.rel (e.tailExactly call n env) (e.tail call' n env)
  := by
  induction n generalizing env e with
  | zero => exact Eval.strictly.refl _
  | succ n ih =>
    have heval : ∀ (env : Env) (e : Expr), Eval.strictly.rel
        (do (← e.tailExactly call n env).onlyValue) (do (← e.tail call' n env).toValue) :=
      fun env e => Eval.strictly.bind (ih env e) TailResult.onlyValue_strictly
    cases e with
    | call f args =>
      apply Eval.strictly.bind (heval env f)
      intro g
      apply Eval.strictly.bind (Eval.strictly.mapM (heval env) args)
      intro vs
      apply Eval.strictly.bind (h g vs)
      intro _
      exact Eval.strictly.refl _
    | cond test yes no =>
      apply Eval.strictly.bind (heval env test)
      intro v
      exact ih env _
    | seq es =>
      unfold Expr.tailExactly Expr.tail
      dsimp only
      cases es.getLast? with
      | none => exact Eval.strictly.refl _
      | some last =>
        apply Eval.strictly.bind (Eval.runAll_congr heval env _)
        intro _
        exact ih env last
    | bind bindings body =>
      apply Eval.strictly.bind (Eval.bindAll_congr heval env bindings)
      intro inner
      exact ih inner body
    | loop bindings body =>
      apply Eval.strictly.bind (Eval.bindAll_congr heval env bindings)
      intro first
      exact Eval.repeatExactly_strictly (fun env => ih env body) _ _ n first
    | recur args =>
      apply Eval.strictly.bind (Eval.strictly.mapM (heval env) args)
      intro vs
      exact Eval.strictly.refl _
    | protect body clauses cleanup =>
      apply Eval.strictly.bind (Eval.protect_congr heval env body clauses cleanup)
      intro v
      exact Eval.strictly.refl _
    | define x e =>
      apply Eval.strictly.bind (heval env e)
      intro v
      exact Eval.strictly.refl _
    | literal d => exact Eval.strictly.refl _
    | builtin b => exact Eval.strictly.refl _
    | var x => exact Eval.strictly.refl _
    | lambda name params body => exact Eval.strictly.refl _

/-- Evaluation anywhere, unless a loop is entered anew where it may not be. -/
theorem Expr.evalExactly_strictly (h : Eval.strictly.Calls call call') (n : Nat) (env : Env)
    (e : Expr) :
  Eval.strictly.rel (e.evalExactly call n env) (e.eval call' n env)
  := Eval.strictly.bind (e.tailExactly_strictly h n env) TailResult.onlyValue_strictly

/-- Calls, unless a loop is entered anew where it may not be. -/
theorem Value.callExactly_strictly (n : Nat) :
  Eval.strictly.Calls (Value.callExactly n) (Value.call n)
  := by
  induction n with
  | zero =>
    intro f vs
    exact Eval.strictly.refl _
  | succ n ih =>
    intro f vs
    cases f with
    | native g => exact g.apply_congr ih rfl vs
    | closure id name params body env =>
      apply Eval.strictly.bind (Eval.strictly.refl _)
      intro _
      exact body.evalExactly_strictly ih n _
    | _ => exact Eval.strictly.refl _

/-! ### Evaluating orderly trees -/

/-- What a tree gives in the tail of a loop that is entered anew with `arity` values: a value,
or as many values. -/
def TailResult.Fits (arity : Option Nat) : TailResult → Prop
  | value _ => True
  | again vs => arity = some vs.length

/-- Whatever a computation gives has a property. -/
def Run.Brings (post : α → Prop) (act : Run α) : Prop :=
  ∀ m a m', act.Gives m (.ok a) m' → post a

/-- Computations go on in the same way when they do with whatever the first one gives. -/
theorem Run.Brings.bind_congr {post : α → Prop} {act : Run α} {k k' : α → Run β}
    (h : act.Brings post) (hk : ∀ a, post a → k a = k' a) :
  act >>= k = act >>= k'
  := by
  funext m
  rw [bind_apply, bind_apply]
  split
  · rename_i a m' ha
    rw [hk a (h m a m' ha)]
  · rfl

/-- What a computation after another one gives. -/
theorem Run.Brings.bind {post : α → Prop} {post' : β → Prop} {act : Run α} {k : α → Run β}
    (h : act.Brings post) (hk : ∀ a, post a → (k a).Brings post') :
  (act >>= k).Brings post'
  := by
  intro m b m' hb
  rcases gives_bind_iff.1 hb with ⟨a, m₁, ha, hb⟩ | ⟨_, hr, _⟩
  · exact hk a (h m a m₁ ha) m₁ b m' hb
  · cases hr

/-- Nothing need be known of what a computation gives. -/
theorem Run.Brings.any (act : Run α) :
  act.Brings fun _ => True
  := fun _ _ _ _ => trivial

/-- A value. -/
theorem Run.Brings.pure {post : α → Prop} {a : α} (h : post a) :
  (Pure.pure a : Run α).Brings post
  := by
  intro m b m' hb
  cases hb
  exact h

/-- Computations for each element of a list give as many values. -/
theorem Run.Brings.mapM (f : α → Run β) (as : List α) :
  (as.mapM f).Brings fun bs => bs.length = as.length
  := by
  induction as with
  | nil =>
    rw [List.mapM_nil]
    exact .pure rfl
  | cons a as ih =>
    rw [List.mapM_cons]
    refine .bind (.any _) fun b _ => ih.bind fun bs hbs => .pure ?_
    exact congrArg (· + 1) hbs

/-- A loop gives a value. -/
theorem Eval.repeatLoop_brings (body : Env → Run TailResult) (enter : List Value → Env)
    (arity : Option Nat) (n : Nat) (env : Env) :
  (repeatLoop body enter n env).Brings (TailResult.Fits arity)
  := by
  induction n generalizing env with
  | zero =>
    intro m r m' h
    cases h
  | succ n ih =>
    refine .bind (.any _) fun r _ => ?_
    cases r with
    | value v => exact .pure trivial
    | again vs => exact ih _

/-- An orderly tree enters a loop anew with as many values as it may. -/
theorem Expr.Orderly.tail_brings (h : e.Orderly arity) (call : Call) (n : Nat) (env : Env) :
  (e.tail call n env).Brings (TailResult.Fits arity)
  := by
  induction n generalizing arity env e with
  | zero =>
    intro m r m' h
    cases h
  | succ n ih =>
    have hvalue : ∀ {act : Run Value},
        (act >>= fun v => (Pure.pure (.value v) : Run TailResult)).Brings
          (TailResult.Fits arity) := .bind (.any _) fun _ _ => .pure trivial
    cases h with
    | literal | builtin => exact .pure trivial
    | var => exact hvalue
    | lambda => exact .bind (.any _) fun _ _ => .pure trivial
    | call => exact .bind (.any _) fun _ _ => .bind (.any _) fun _ _ => hvalue
    | cond _ hyes hno =>
      refine .bind (.any _) fun v _ => ?_
      split
      · exact ih hyes env
      · exact ih hno env
    | seq _ hlast =>
      unfold Expr.tail
      dsimp only
      split
      · exact .pure trivial
      · rename_i last hsome
        exact .bind (.any _) fun _ _ => ih (hlast last hsome) env
    | bind _ hbody => exact .bind (.any _) fun inner _ => ih hbody inner
    | loop => exact .bind (.any _) fun first _ => Eval.repeatLoop_brings _ _ _ n first
    | recur =>
      refine (Run.Brings.mapM _ _).bind fun vs hvs => .pure ?_
      exact congrArg some hvs.symm
    | protect => exact hvalue
    | define => exact .bind (.any _) fun _ _ => .bind (.any _) fun _ _ => .pure trivial

/-- Computations for the elements of a list are those that they are for each element. -/
theorem Run.mapM_congr {f f' : α → Run β} {as : List α} (h : ∀ a ∈ as, f a = f' a) :
  as.mapM f = as.mapM f'
  := by
  induction as with
  | nil => rfl
  | cons a as ih =>
    obtain ⟨ha, has⟩ := List.forall_mem_cons.1 h
    rw [List.mapM_cons, List.mapM_cons, ha, ih has]

namespace Eval

variable {eval eval' : Env → Expr → Run Value}

/-- Two ways to evaluate do the same with a tree. -/
def Same (eval eval' : Env → Expr → Run Value) (e : Expr) : Prop :=
  ∀ env, eval env e = eval' env e

/-- Two ways to evaluate do the same with bindings when they do with the initial values. -/
theorem bindAll_same {bs : List (Symbol × Expr)} (h : ∀ b ∈ bs, Same eval eval' b.2) (env : Env) :
  bindAll eval env bs = bindAll eval' env bs
  := by
  induction bs generalizing env with
  | nil => rfl
  | cons b bs ih =>
    obtain ⟨hb, hbs⟩ := List.forall_mem_cons.1 h
    rw [bindAll, bindAll, hb env]
    exact congrArg _ (funext fun v => ih hbs _)

/-- Two ways to evaluate do the same with a sequence when they do with its trees. -/
theorem runAll_same {es : List Expr} (h : ∀ e ∈ es, Same eval eval' e) (env : Env) :
  runAll eval env es = runAll eval' env es
  := by
  induction es with
  | nil => rfl
  | cons e es ih =>
    obtain ⟨he, hes⟩ := List.forall_mem_cons.1 h
    rw [runAll, runAll, he env, ih hes]

/-- Two ways to evaluate do the same with a protected body when they do with its parts. -/
theorem protect_same {body : Expr} {clauses : List (Clause Expr)} {cleanup : Option Expr}
    (hbody : Same eval eval' body) (hclauses : ∀ c ∈ clauses, Same eval eval' c.body)
    (hcleanup : ∀ e ∈ cleanup, Same eval eval' e) (env : Env) :
  protect eval env body clauses cleanup = protect eval' env body clauses cleanup
  := by
  have hselect : selectClause eval env clauses = selectClause eval' env clauses := by
    funext c
    unfold selectClause
    split
    · rename_i clause hfind
      exact hclauses clause (List.mem_of_find?_eq_some hfind) _
    · rfl
  unfold protect
  rw [hbody env, hselect]
  cases cleanup with
  | none => rfl
  | some e =>
    dsimp only
    rw [hcleanup e rfl env]

/-- Loops are entered anew with as many values as they have bindings when their bodies are
orderly. -/
theorem repeatExactly_eq {arity : Nat} {body : Env → Run TailResult}
    (h : ∀ env, (body env).Brings (TailResult.Fits (some arity))) (enter : List Value → Env)
    (n : Nat) (env : Env) :
  repeatExactly arity body enter n env = repeatLoop body enter n env
  := by
  induction n generalizing env with
  | zero => rfl
  | succ n ih =>
    apply (h env).bind_congr
    rintro (v | vs) hr
    · rfl
    · dsimp only
      rw [if_pos (Option.some.inj hr).symm]
      exact ih _

end Eval

/-- An orderly tree is evaluated without entering a loop anew where it may not be. -/
theorem Expr.Orderly.tailExactly_eq (h : e.Orderly arity) (call : Call) (n : Nat) (env : Env) :
  e.tailExactly call n env = e.tail call n env
  := by
  induction n generalizing arity env e with
  | zero => rfl
  | succ n ih =>
    have heval : ∀ {e : Expr}, e.Orderly none → ∀ env,
        (do (← e.tailExactly call n env).onlyValue : Run Value) =
          (do (← e.tail call n env).toValue) := by
      intro e he env
      rw [ih he env]
      apply (he.tail_brings call n env).bind_congr
      rintro (v | vs) hr
      · rfl
      · cases hr
    have hsame : ∀ {e : Expr}, e.Orderly none → Eval.Same
        (fun env e => do (← e.tailExactly call n env).onlyValue)
        (fun env e => do (← e.tail call n env).toValue) e := heval
    cases h with
    | literal | builtin | var | lambda => rfl
    | call hf hargs =>
      unfold Expr.tailExactly Expr.tail
      dsimp only
      rw [heval hf env, Run.mapM_congr fun a ha => heval (hargs a ha) env]
    | cond htest hyes hno =>
      unfold Expr.tailExactly Expr.tail
      dsimp only
      rw [heval htest env]
      refine congrArg _ (funext fun v => ?_)
      split
      · exact ih hyes env
      · exact ih hno env
    | @seq _ es hbefore hlast =>
      unfold Expr.tailExactly Expr.tail
      dsimp only
      rw [Eval.runAll_same (fun e he => hsame (hbefore e he)) env]
      cases hsome : es.getLast? with
      | none => rfl
      | some last =>
        dsimp only
        rw [ih (hlast last hsome) env]
    | bind hbs hbody =>
      unfold Expr.tailExactly Expr.tail
      dsimp only
      rw [Eval.bindAll_same (fun b hb => hsame (hbs b hb)) env]
      exact congrArg _ (funext fun inner => ih hbody inner)
    | loop hbs hbody =>
      unfold Expr.tailExactly Expr.tail
      dsimp only
      rw [Eval.bindAll_same (fun b hb => hsame (hbs b hb)) env]
      refine congrArg _ (funext fun first => ?_)
      have hsame : (fun env => tailExactly call n env _) = fun env => tail call n env _ :=
        funext fun env => ih hbody env
      rw [hsame]
      exact Eval.repeatExactly_eq (fun env => hbody.tail_brings call n env) _ n first
    | recur hargs =>
      unfold Expr.tailExactly Expr.tail
      dsimp only
      rw [Run.mapM_congr fun a ha => heval (hargs a ha) env]
    | protect hbody hclauses hcleanup =>
      unfold Expr.tailExactly Expr.tail
      dsimp only
      rw [Eval.protect_same (hsame hbody) (fun c hc => hsame (hclauses c hc))
        (fun e he => hsame (hcleanup e he)) env]
    | define he =>
      unfold Expr.tailExactly Expr.tail
      dsimp only
      rw [heval he env]

/-- An orderly tree in no tail has a value. -/
theorem Expr.Orderly.evalExactly_eq (h : e.Orderly none) (call : Call) (n : Nat) (env : Env) :
  e.evalExactly call n env = e.eval call n env
  := by
  unfold Expr.evalExactly Expr.eval
  rw [h.tailExactly_eq call n env]
  apply (h.tail_brings call n env).bind_congr
  rintro (v | vs) hr
  · rfl
  · cases hr

/-! ### Running programs of orderly trees -/

/-- Values in which the bodies of all function literals are orderly. -/
def Stock.orderly : Stock where
  builtin _ := True
  primitive _ := True
  body e := e.Orderly none
  nests := True
  run _ := trivial
  unwind _ := trivial

namespace Regime

/-- The regime in which all trees are orderly, and no loop is entered anew where it may not
be. -/
def orderly : Regime :=
  ofStock .orderly (fun _ => True) (fun e => ∃ arity, e.Orderly arity) True (fun _ _ => True)
    (· ∉ Eval.strayFaults)

/-- The operations of the machine enter no loops. -/
theorem orderly_lawful :
  orderly.Lawful
  where
  toClosed := ofStock_closed _ _ _ _ fun _ _ _ => trivial
  refl _ := trivial
  trans _ _ := trivial
  inert _ := trivial
  noted _ := trivial
  enqueued _ _ := trivial
  counted _ _ := trivial
  entering _ := trivial
  outside _ := trivial
  bounce _ _ := trivial
  push _ _ _ := trivial
  pop _ _ _ _ _ := trivial
  held _ := .builtin trivial
  var _ := trivial
  lambda := by
    rintro _ _ _ ⟨_, h⟩
    cases h with
    | lambda hbody => exact hbody
  stops := by
    have hother : ∀ message ∈ operationFaults, message ∉ Eval.strayFaults := by decide
    exact hother

/-- The children of orderly trees are orderly. -/
theorem orderly_evaluable :
  orderly.Evaluable
  := fun _ ⟨_, h⟩ => .inl h.children

end Regime

/-- What respects the regime of orderly trees does not stop at a stray re-entry. -/
theorem Run.Keeps.eq_of_strictly {act act' : Run α} {post : α → Prop} {m : Machine}
    (h : act.Keeps .orderly post) (hsame : Eval.strictly.rel act act')
    (hm : m.Obeys .orderly) :
  act m = act' m
  := by
  rcases hsame m with ⟨message, hmem, m', hfault⟩ | hsame
  · have hkept := h m hm
    rw [hfault] at hkept
    cases hkept with
    | fault hother => exact absurd hmem hother
  · exact hsame

/-- Calls that enter loops anew only where they may run the functions that trees hold. -/
theorem Value.callExactly_runsBuiltins (n : Nat) :
  Call.RunsBuiltins (Value.callExactly n)
  := by
  intro b vs
  cases n with
  | zero => exact .inr rfl
  | succ n => exact .inl rfl

/-- Calls in a program of orderly trees enter loops anew only where they may. -/
theorem Value.callExactly_keeps (n : Nat) :
  Call.Keeps .orderly (Value.callExactly n)
  := by
  have hR := Regime.orderly_lawful
  induction n with
  | zero =>
    intro f vs _ _
    exact Keeps.exhausted
  | succ n ih =>
    intro f vs hf hvs
    cases f with
    | native g => exact g.apply_keeps hR ih hf n hvs
    | closure id name params body env =>
      have hbody : body.Orderly none := (hR.closure_iff.1 hf).1
      have hexactly : Eval.enterExactly (Value.callExactly n) n
          (.closure id name params body env) name params body env vs =
            Eval.enterClosure (Value.callExactly n) n
              (.closure id name params body env) name params body env vs :=
        congrArg _ (funext fun _ => hbody.evalExactly_eq _ n _)
      change Run.Keeps .orderly _ (Eval.enterExactly _ _ _ _ _ _ _ _)
      rw [hexactly]
      exact Eval.enterClosure_keeps hR ih Regime.orderly_evaluable
        (Value.callExactly_runsBuiltins n) n ⟨none, hbody⟩ hf hvs
    | _ => exact Value.refuse_keeps hR _

/-- Evaluation in a program of orderly trees enters loops anew only where it may. -/
theorem Expr.Orderly.evalExactly_keeps (h : e.Orderly none) (henv : env.Obeys .orderly)
    (c n : Nat) :
  (e.evalExactly (Value.callExactly c) n env).Keeps .orderly (Value.MadeOf .orderly)
  := by
  rw [h.evalExactly_eq]
  exact Expr.eval_keeps Regime.orderly_lawful (Value.callExactly_keeps c)
    Regime.orderly_evaluable (Value.callExactly_runsBuiltins c) n ⟨none, h⟩ henv

namespace Compile

/-- Re-entries of loops are compiled and run as they should be.  Forms are compiled to trees
in which re-entries stand only in the tails of loops and give one value for each binding of
their loop; lowering the body of a coroutine does not fail at one; and evaluating such a tree,
among values whose function literals were compiled so, never comes to a re-entry where a value
is needed or to one with a wrong number of values, and leaves such values. -/
structure Options.ReentersSoundly (o : Options) : Prop where
  places {d : Datum} {t t' : SymbolTable} {e : Expr} (h : Compile.compile o d t = .ok e t') :
    e.Orderly none
  lowers {flavor : String} {table : Coroutine.Table} {ds : List Datum} {body : Expr}
    {err : CompileError} {t t' t₁ t₂ : SymbolTable} (htable : o.flavors.table flavor = .ok table)
    (hbody : Compile.body o .top ds t = .ok body t')
    (h : Coroutine.compile table body t₁ = .error err t₂) : err.isReentry = false
  runs {d : Datum} {t t' : SymbolTable} {e : Expr} {env : Env} {m : Machine}
    (h : Compile.compile o d t = .ok e t') (henv : env.Obeys .orderly) (hm : m.Obeys .orderly)
    (c fuel : Nat) :
    e.evalExactly (Value.callExactly c) fuel env m = e.eval (Value.call c) fuel env m ∧
    (∀ message ∈ Eval.strayFaults, ∀ m',
      e.evalExactly (Value.callExactly c) fuel env m ≠ .error (.fault message) m') ∧
    ∀ r m', (e.eval (Value.call c) fuel env).Gives m r m' →
      Ended.Holds (Value.MadeOf .orderly) (Value.MadeOf .orderly) r ∧ m'.Obeys .orderly

/-- Re-entries of loops are compiled and run as they should be when the handlers of breakpoints
make orderly trees. -/
theorem reenters_soundly {o : Options} (ho : o.flavors.Orderly) :
  o.ReentersSoundly
  where
  places h := compile_orderly ho _ _ _ _ h
  lowers := by
    intro _ _ _ _ _ _ _ t₁ _ htable hbody h
    have hyields := body_lowers ho htable _ _ _ _ hbody t₁
    rw [h] at hyields
    cases hyields with
    | error herr => exact herr
  runs h henv hm c fuel := by
    have he := compile_orderly ho _ _ _ _ h
    have hkeeps := he.evalExactly_keeps henv c fuel
    have heq := hkeeps.eq_of_strictly
      (Expr.evalExactly_strictly (Value.callExactly_strictly c) fuel _ _) hm
    refine ⟨heq, fun message hmem m' hfault => ?_, fun r m' hgives => ?_⟩
    · have hkept := hkeeps _ hm
      rw [hfault] at hkept
      cases hkept with
      | fault hother => exact hother hmem
    · unfold Run.Gives at hgives
      rw [← heq] at hgives
      obtain ⟨hr, hm', -⟩ := hkeeps.gives hm hgives
      exact ⟨hr, hm'⟩

/-- With the default flavors, re-entries of loops are compiled and run as they should be. -/
theorem default_reenters_soundly :
  Coroutine.Flavors.default.Orderly ∧ (Options.mk .default false).ReentersSoundly
  := ⟨Coroutine.Flavors.orderly_default, reenters_soundly Coroutine.Flavors.orderly_default⟩

end Compile

end Skein
