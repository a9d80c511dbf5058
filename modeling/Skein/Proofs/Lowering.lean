import Skein.Proofs.Forms
import Skein.Proofs.Tidy

/-!
# What lowering makes

Code is made of the trees that are copied, of names, and of calls, function literals and
protected bodies around them.  So a property of code holds of what a tree is lowered to when
it holds of the copies, and is kept by what is put around them.

The property of trees that is carried to code need not be that of code.  It is handed down to
the parts that are lowered, and holds of the few trees that lowering makes to lower them.
-/

namespace Skein.Coroutine

open Compiling
open Skein.Expr (weight weightAll weightBindings weightClauses weightCleanup)

/-- The stems of the names that lowering mints. -/
def stems : List String := ["k", "f", "v", "t", "e", "loop", "_"]

/-- Lowering carries a property `P` of trees to a property `C` of code, in which only names
of `N` are called and referred to. -/
structure Carries (table : Table) (N : Symbol → Prop) (P C : Expr → Prop) : Prop where
  /-- Names that are minted. -/
  fresh {stem : String} (h : stem ∈ stems) (n : Nat) : N (SymbolTable.spell stem n)
  -- trees
  /-- A tree that need not be lowered. -/
  copied {e : Expr} : P e → e.reaches table.has = false → C e
  call {f : Expr} {args : List Expr} : P (.call f args) →
    ((calledHandler? table f).isSome = true ∨ P f ∨ ∃ b, f = .builtin b) ∧ ∀ a ∈ args, P a
  children {e c : Expr} : P e → (∀ f args, e ≠ .call f args) → c ∈ e.children → P c
  loopNames {bs : List (Symbol × Expr)} {body : Expr} : P (.loop bs body) → ∀ b ∈ bs, N b.1
  /-- The trees that stand for a name, and for raising its value. -/
  name {x : Symbol} : N x → P (.var x)
  raise {x : Symbol} : N x → P (raising (.var x))
  block {es : List Expr} : (∀ e ∈ es, P e) → P (.block es)
  -- code
  handler {f : Expr} {op : Symbol} {handler : Handler} {site : Site} {args : List Expr}
    {code : Expr} : calledHandler? table f = some (op, handler) → N site.success →
    N site.failure → (∀ a ∈ args, C a) → handler site args = .ok code → C code
  var {x : Symbol} : N x → C (.var x)
  lambda {name : Option Symbol} {params : List Symbol} {body : Expr} : C body →
    C (.lambda name params body)
  callBuiltin {b : Builtin} {args : List Expr} : (∀ a ∈ args, C a) → C (.call (.builtin b) args)
  /-- A tree that is neither a name, a held function, a function literal nor a loop. -/
  node {e : Expr} : (∀ x, e ≠ .var x) → (∀ b, e ≠ .builtin b) → e.functionBody? = none →
    e.isLoop = false → (∀ c ∈ e.children, C c) → C e

/-- The names that a scope gives to code. -/
structure Scope.Gives (N : Symbol → Prop) (s : Scope) : Prop where
  success : N s.success
  failure : N s.failure
  head : ∀ h ∈ s.head, N h.name

namespace Scope.Gives

variable {N : Symbol → Prop} {s : Scope}

/-- More bindings. -/
theorem binding (h : s.Gives N) (names : List Symbol) :
  (s.binding names).Gives N
  := ⟨h.success, h.failure, h.head⟩

/-- Another continuation for values. -/
theorem delivering {k : Symbol} (h : s.Gives N) (hk : N k) :
  (s.delivering k).Gives N
  := ⟨hk, h.failure, h.head⟩

/-- Other continuations. -/
theorem continuingWith {k f : Symbol} (h : s.Gives N) (hk : N k) (hf : N f) :
  (s.continuingWith k f).Gives N
  := ⟨hk, hf, h.head⟩

/-- Inside of a lowered loop. -/
theorem inLoop {head : Head} (h : s.Gives N) (hhead : N head.name) :
  (s.inLoop head).Gives N
  := by
  refine ⟨h.success, h.failure, ?_⟩
  rintro _ ⟨⟩
  exact hhead

end Scope.Gives

/-- A tail carries a property: of its tree, or of its code. -/
def Tail.Carries (P C : Expr → Prop) : Tail → Prop
  | .value e => P e
  | .code e => C e

/-- Continuations that end a protected body: their names, and the code that binds them. -/
structure Landing.Carries (N : Symbol → Prop) (C : Expr → Prop) (landing : Landing) : Prop where
  success : N landing.success
  failure : N landing.failure
  bindings : ∀ b ∈ landing.bindings, C b.2

namespace Carries

variable {table : Table} {N : Symbol → Prop} {P C : Expr → Prop} {s : Scope}

section parts

variable (h : Carries table N P C)
include h

/-- A minted name. -/
theorem fresh_makes {stem : String} (hstem : stem ∈ stems) :
  Makes N (Skein.fresh stem)
  := by
  intro t x t' hx
  obtain ⟨rfl, -⟩ := fresh_eq_ok_iff.1 hx
  exact h.fresh hstem _

/-- A literal. -/
theorem literal (d : Datum) :
  C (.literal d)
  := h.node nofun nofun rfl rfl fun _ h => absurd h List.not_mem_nil

/-- Handing a value to a continuation. -/
theorem send {k : Symbol} {e : Expr} (hk : N k) (he : C e) :
  C (.send k e)
  := h.node nofun nofun rfl rfl
    (List.forall_mem_cons.2 ⟨h.var hk, List.forall_mem_singleton.2 he⟩)

/-- A call. -/
theorem calling {f : Expr} {args : List Expr} (hf : C f) (hargs : ∀ a ∈ args, C a) :
  C (.call f args)
  := h.node nofun nofun rfl rfl (List.forall_mem_cons.2 ⟨hf, hargs⟩)

/-- Bindings around code. -/
theorem binding {bs : List (Symbol × Expr)} {body : Expr} (hbs : ∀ b ∈ bs, C b.2)
    (hbody : C body) :
  C (.binding bs body)
  := Expr.binding_of (h.node nofun nofun rfl rfl) hbs hbody

/-- A sequence of code. -/
theorem sequence {es : List Expr} (hes : ∀ e ∈ es, C e) :
  C (.block es)
  := Expr.block_of (h.literal _) (h.node nofun nofun rfl rfl) hes

/-- The first of some values. -/
theorem headD {values : List Expr} (hvalues : ∀ v ∈ values, C v) :
  C (values.headD .nil)
  := by
  cases values with
  | nil => exact h.literal _
  | cons v vs => exact hvalues v List.mem_cons_self

/-- A guarded body. -/
theorem guarded {body : Expr} {failure : Symbol} (hbody : C body) (hfailure : N failure) :
  Makes C (guarded body failure)
  := by
  unfold Coroutine.guarded
  refine Makes.bind (h.fresh_makes (by decide)) fun e he => .pure (h.node nofun nofun rfl rfl ?_)
  apply Expr.forall_children_protect hbody
  · exact List.forall_mem_singleton.2 (h.send hfailure (h.var he))
  · exact fun _ h => absurd h (Option.not_mem_none _)

/-- A function of one value. -/
theorem receiver (param : Symbol) {body : Expr} {failure : Symbol} (hbody : C body)
    (hfailure : N failure) :
  Makes C (receiver param body failure)
  := by
  unfold Coroutine.receiver
  exact Makes.bind (h.guarded hbody hfailure) fun code hcode => .pure (h.lambda hcode)

/-- Values that names stand for. -/
theorem fixValues (s : Scope) {es : List Expr} (hes : ∀ e ∈ es, C e) :
  Makes (fun fixed => (∀ b ∈ fixed.1, C b.2) ∧ ∀ v ∈ fixed.2, C v) (fixValues s es)
  := by
  induction es with
  | nil =>
    rw [Coroutine.fixValues]
    exact .pure ⟨fun _ h => absurd h List.not_mem_nil, fun _ h => absurd h List.not_mem_nil⟩
  | cons e es ih =>
    obtain ⟨he, hes⟩ := List.forall_mem_cons.1 hes
    rw [Coroutine.fixValues]
    split
    · refine Makes.bind (ih hes) ?_
      rintro ⟨temps, values⟩ ⟨htemps, hvalues⟩
      exact .pure ⟨htemps, List.forall_mem_cons.2 ⟨he, hvalues⟩⟩
    · refine Makes.bind (h.fresh_makes (by decide)) fun t ht => Makes.bind (ih hes) ?_
      rintro ⟨temps, values⟩ ⟨htemps, hvalues⟩
      exact .pure ⟨List.forall_mem_cons.2 ⟨he, htemps⟩,
        List.forall_mem_cons.2 ⟨h.var ht, hvalues⟩⟩

/-- The thunk that enters a lowered loop anew. -/
theorem reentry {head : Head} (hhead : N head.name) (s : Scope) {values : List Expr}
    (hvalues : ∀ v ∈ values, C v) :
  Makes C (reentry head s values)
  := by
  unfold Coroutine.reentry
  refine Makes.bind (h.fixValues s hvalues) ?_
  rintro ⟨temps, values⟩ ⟨htemps, hvalues⟩
  apply Makes.pure
  apply h.binding htemps
  apply h.callBuiltin
  exact List.forall_mem_singleton.2 (h.lambda (h.calling (h.var hhead) hvalues))

/-- A tree that need not be lowered in some scope. -/
theorem of_not_needs {e : Expr} (he : P e) (hneeds : ¬ needsLowering table s e = true) :
  C e
  := by
  rw [needsLowering, Bool.or_eq_true, not_or] at hneeds
  exact h.copied he (Bool.eq_false_iff.2 hneeds.1)

/-- Trees that need not be lowered in some scope. -/
theorem of_not_any_needs {es : List Expr} (hes : ∀ e ∈ es, P e)
    (hneeds : (!es.any (needsLowering table s)) = true) :
  ∀ e ∈ es, C e
  := by
  rw [Bool.not_eq_true', List.any_eq_false] at hneeds
  exact fun e he => h.of_not_needs (hes e he) (hneeds e he)

/-- A tree that is copied wherever it stands. -/
theorem leaf {e : Expr} (he : P e) (hcalled : e.calledBreakpoint? table.has = none)
    (hchildren : e.children = []) :
  C e
  := by
  apply h.copied he
  rw [Expr.reaches_eq, hcalled, hchildren]
  rfl

end parts

/-! ### Lowering -/

mutual

/-- Handing over the value of a tree. -/
theorem handOver (h : Carries table N P C) (s : Scope) (e : Expr) :
  s.Gives N → P e → Makes C (handOver table s e)
  := by
  intro hs he
  rw [Coroutine.handOver]
  split
  · exact h.lower s e hs he
  · rename_i hneeds
    exact .pure (h.send hs.success (h.of_not_needs he hneeds))
termination_by 3 * e.weight + 1

/-- Lowering a tree. -/
theorem lower (h : Carries table N P C) (s : Scope) (e : Expr) :
  s.Gives N → P e → Makes C (lower table s e)
  := by
  cases e with
  | literal d => intro hs he; rw [Coroutine.lower]; exact .pure (h.send hs.success (h.leaf he rfl rfl))
  | builtin b => intro hs he; rw [Coroutine.lower]; exact .pure (h.send hs.success (h.leaf he rfl rfl))
  | var x => intro hs he; rw [Coroutine.lower]; exact .pure (h.send hs.success (h.leaf he rfl rfl))
  | lambda name params body =>
    intro hs he
    rw [Coroutine.lower]
    exact .pure (h.send hs.success (h.leaf he rfl rfl))
  | call f args =>
    intro hs he
    obtain ⟨hf, hargs⟩ := h.call he
    have := f.weight_pos
    rw [Coroutine.lower]
    split
    · rename_i op handler hhandler
      apply h.inOrder s [] [] args _ hs hargs (fun _ h => absurd h List.not_mem_nil)
      intro s' values hs' hvalues
      exact Makes.ofExcept fun code hcode =>
        h.handler hhandler hs'.success hs'.failure hvalues hcode
    · rename_i hnone
      rcases hf with hsome | hf | ⟨b, rfl⟩
      · rw [hnone] at hsome
        cases hsome
      · apply h.inOrder s [] [] (f :: args) _ hs (List.forall_mem_cons.2 ⟨hf, hargs⟩)
          (fun _ h => absurd h List.not_mem_nil)
        intro s' values hs' hvalues
        refine .pure (h.send hs'.success (h.calling (h.headD hvalues) ?_))
        exact fun v hv => hvalues v (List.mem_of_mem_tail hv)
      · exact h.callOfBuiltin s b args hs hargs
  | cond test yes no =>
    intro hs he
    have hparts := fun c hc => h.children (c := c) he nofun hc
    rw [Coroutine.lower]
    apply h.inOrder s [] [] [test] _ hs
      (List.forall_mem_singleton.2 (hparts test (by simp [Expr.children])))
      (fun _ h => absurd h List.not_mem_nil)
    intro s' values hs' hvalues
    refine Makes.bind (h.handOver s' yes hs' (hparts yes (by simp [Expr.children]))) ?_
    intro yes' hyes
    refine Makes.bind (h.handOver s' no hs' (hparts no (by simp [Expr.children]))) ?_
    intro no' hno
    refine .pure (h.node nofun nofun rfl rfl ?_)
    exact List.forall_mem_cons.2
      ⟨h.headD hvalues, List.forall_mem_cons.2 ⟨hyes, List.forall_mem_singleton.2 hno⟩⟩
  | seq es =>
    intro hs he
    rw [Coroutine.lower]
    exact h.lowerSeq s [] es hs (fun _ h => absurd h List.not_mem_nil)
      fun e hmem => h.children he nofun hmem
  | bind bindings body =>
    intro hs he
    have hparts := fun c hc => h.children (c := c) he nofun hc
    rw [Coroutine.lower]
    apply h.lowerBindings s [] bindings (.value body) hs fun _ h => absurd h List.not_mem_nil
    · exact fun b hb => hparts _ (List.mem_append_left _ (List.mem_map_of_mem hb))
    · exact hparts body (List.mem_append_right _ List.mem_cons_self)
  | loop bindings body =>
    intro hs he
    have hparts := fun c hc => h.children (c := c) he nofun hc
    have hbody := hparts body (List.mem_append_right _ List.mem_cons_self)
    rw [Coroutine.lower]
    refine Makes.bind (h.fresh_makes (by decide)) fun name hname => ?_
    refine Makes.bind (h.handOver _ body ((hs.inLoop hname).binding _) hbody)
      fun inner hinner => ?_
    refine Makes.bind (h.guarded hinner hs.failure) fun code hcode => ?_
    refine Makes.bind (h.lowerBindings _ [] bindings (.code _) (hs.binding _)
      (fun _ h => absurd h List.not_mem_nil)
      (fun b hb => hparts _ (List.mem_append_left _ (List.mem_map_of_mem hb))) ?_)
      fun start hstart => ?_
    · apply h.calling (h.var hname)
      intro a ha
      obtain ⟨x, hx, rfl⟩ := List.mem_map.1 ha
      obtain ⟨b, hb, rfl⟩ := List.mem_map.1 hx
      exact h.var (h.loopNames he b hb)
    · exact .pure (h.binding (List.forall_mem_singleton.2 (h.lambda hcode)) hstart)
  | recur args =>
    intro hs he
    rw [Coroutine.lower]
    split
    · exact .throw _
    · rename_i head hhead
      split
      · apply h.inOrder s [] [] args _ hs (fun a ha => h.children he nofun ha)
          (fun _ h => absurd h List.not_mem_nil)
        exact fun s' values _ hvalues => h.reentry (hs.head head hhead) s' hvalues
      · exact .throw _
  | define x e =>
    intro hs he
    rw [Coroutine.lower]
    apply h.inOrder s [] [] [e] _ hs (fun a ha => h.children he nofun ha)
      (fun _ h => absurd h List.not_mem_nil)
    intro s' values hs' hvalues
    refine .pure (h.send hs'.success (h.node nofun nofun rfl rfl ?_))
    exact List.forall_mem_singleton.2 (h.headD hvalues)
  | protect body clauses cleanup =>
    intro hs he
    have hparts := fun c hc => h.children (c := c) he nofun hc
    have hbody := hparts body (List.mem_append_left _ List.mem_cons_self)
    have hclauses : ∀ c ∈ clauses, P c.body := fun c hc =>
      hparts _ (List.mem_append_left _ (List.mem_cons_of_mem _ (List.mem_map_of_mem hc)))
    have hcleanup : ∀ e ∈ cleanup, P e := fun e he =>
      hparts e (List.mem_append_right _ (Option.mem_toList.2 he))
    rw [Coroutine.lower]
    split
    · exact h.handOver s body hs hbody
    · refine Makes.bind (h.lowerCleanup s cleanup hs hcleanup) fun last hlast => ?_
      refine Makes.bind (h.lowerClauses _ last clauses (hs.binding _) hlast hclauses)
        fun first hfirst => ?_
      refine Makes.bind (h.handOver _ body
        (((hs.binding _).binding _).continuingWith hfirst.success hfirst.failure) hbody)
        fun code hcode => ?_
      refine Makes.bind (h.guarded hcode hfirst.failure) fun code hcode => ?_
      exact .pure (h.binding (List.forall_mem_append.2 ⟨hlast.bindings, hfirst.bindings⟩) hcode)
termination_by 3 * e.weight
decreasing_by
  all_goals
    simp only [weight, weightAll, Tail.weight]
    omega

/-- Lowering a call of a function that the tree holds.  The function is fixed, so that it stays
where it is. -/
theorem callOfBuiltin (h : Carries table N P C) (s : Scope) (b : Builtin) (args : List Expr) :
  s.Gives N → (∀ a ∈ args, P a) →
    Makes C (Coroutine.inOrder table s [] (.builtin b :: args) fun s' values =>
      return .send s'.success (.call (values.headD .nil) values.tail))
  := by
  intro hs hargs
  have hneeds : ¬ needsLowering table s (.builtin b) = true := by
    rw [needsLowering, Expr.reaches_eq, Expr.recurs_eq]
    simp [Expr.calledBreakpoint?, Expr.children, Expr.isRecur]
  rw [Coroutine.inOrder, if_neg hneeds]
  split
  · rename_i hnone
    rw [List.any_cons, Bool.eq_false_iff.2 hneeds, Bool.false_or] at hnone
    exact .pure (h.send hs.success (h.callBuiltin (h.of_not_any_needs hargs hnone)))
  · rw [if_pos (show isFixed s (.builtin b) = true from rfl)]
    apply h.inOrder s [.builtin b] [] args _ hs hargs (fun _ h => absurd h List.not_mem_nil)
    intro s' values hs' hvalues
    exact .pure (h.send hs'.success (h.callBuiltin hvalues))
termination_by 3 * weightAll args + 3

/-- Code that evaluates trees in turn, after some that it leaves as they are. -/
theorem inOrder (h : Carries table N P C) (s : Scope) (before values es : List Expr)
    (finish : Scope → List Expr → Compiling Expr) :
  s.Gives N → (∀ e ∈ es, P e) → (∀ v ∈ values, C v) →
    (∀ s' vs, s'.Gives N → (∀ v ∈ vs, C v) → Makes C (finish s' (before ++ vs))) →
    Makes C (inOrder table s (before ++ values) es finish)
  := by
  cases es with
  | nil =>
    intro hs _ hvalues hfinish
    rw [Coroutine.inOrder]
    exact hfinish s values hs hvalues
  | cons e rest =>
    intro hs hes hvalues hfinish
    obtain ⟨he, hrest⟩ := List.forall_mem_cons.1 hes
    have hnext : ∀ {c : Expr}, C c → ∀ v ∈ values ++ [c], C v := fun hc =>
      List.forall_mem_append.2 ⟨hvalues, List.forall_mem_singleton.2 hc⟩
    rw [Coroutine.inOrder]
    split
    · rename_i hneeds
      rw [List.append_assoc]
      exact hfinish s _ hs (List.forall_mem_append.2 ⟨hvalues, h.of_not_any_needs hes hneeds⟩)
    · split
      · refine Makes.bind (h.fresh_makes (by decide)) fun v hv => ?_
        rw [List.append_assoc]
        refine Makes.bind (h.inOrder _ before _ rest finish (hs.binding [v]) hrest
          (hnext (h.var hv)) hfinish) fun body hbody => ?_
        refine Makes.bind (h.fresh_makes (by decide)) fun k hk => ?_
        refine Makes.bind (h.receiver v hbody hs.failure) fun cont hcont => ?_
        refine Makes.bind (h.lower _ e (hs.delivering hk) he) fun code hcode => ?_
        exact .pure (h.binding (List.forall_mem_singleton.2 hcont) hcode)
      · rename_i hneeds
        have hcopied : C e := h.of_not_needs he hneeds
        split
        · rw [List.append_assoc]
          exact h.inOrder s before _ rest finish hs hrest (hnext hcopied) hfinish
        · refine Makes.bind (h.fresh_makes (by decide)) fun t ht => ?_
          rw [List.append_assoc]
          refine Makes.bind (h.inOrder _ before _ rest finish (hs.binding [t]) hrest
            (hnext (h.var ht)) hfinish) fun body hbody => ?_
          exact .pure (h.binding (List.forall_mem_singleton.2 hcopied) hbody)
termination_by 3 * weightAll es + 2
decreasing_by
  all_goals
    have := e.weight_pos
    simp only [weightAll]
    omega

/-- Lowering a sequence. -/
theorem lowerSeq (h : Carries table N P C) (s : Scope) (before es : List Expr) :
  s.Gives N → (∀ e ∈ before, C e) → (∀ e ∈ es, P e) → Makes C (lowerSeq table s before es)
  := by
  cases es with
  | nil =>
    intro hs hbefore _
    rw [Coroutine.lowerSeq]
    exact .pure (h.send hs.success (h.sequence hbefore))
  | cons e rest =>
    intro hs hbefore hes
    obtain ⟨he, hrest⟩ := List.forall_mem_cons.1 hes
    have hnext : ∀ {c : Expr}, C c → ∀ e ∈ before ++ [c], C e := fun hc =>
      List.forall_mem_append.2 ⟨hbefore, List.forall_mem_singleton.2 hc⟩
    rw [Coroutine.lowerSeq]
    split
    · rename_i hneeds
      rw [Bool.not_eq_true', ← Bool.not_eq_true] at hneeds
      exact h.lowerSeq s _ rest hs (hnext (h.of_not_needs he hneeds)) hrest
    · split
      · refine Makes.bind (h.lower s e hs he) fun code hcode => ?_
        exact .pure (h.sequence (hnext hcode))
      · refine Makes.bind (h.fresh_makes (by decide)) fun k hk => Makes.bind (.any _) fun ignored _ => ?_
        refine Makes.bind (h.handOver _ (.block rest) (hs.binding [ignored]) (h.block hrest))
          fun after hafter => ?_
        refine Makes.bind (h.receiver ignored hafter hs.failure) fun cont hcont => ?_
        refine Makes.bind (h.lower _ e (hs.delivering hk) he) fun code hcode => ?_
        exact .pure (h.sequence (hnext (h.binding (List.forall_mem_singleton.2 hcont) hcode)))
termination_by 3 * weightAll es + 2
decreasing_by
  all_goals
    have := e.weight_pos
    have := Expr.weight_block_le rest
    simp only [weightAll]
    omega

/-- Lowering bindings. -/
theorem lowerBindings (h : Carries table N P C) (s : Scope)
    (before bindings : List (Symbol × Expr)) (tail : Tail) :
  s.Gives N → (∀ b ∈ before, C b.2) → (∀ b ∈ bindings, P b.2) → tail.Carries P C →
    Makes C (lowerBindings table s before bindings tail)
  := by
  cases bindings with
  | nil =>
    intro hs hbefore _ htail
    cases tail with
    | value body =>
      rw [Coroutine.lowerBindings]
      exact Makes.bind (h.handOver s body hs htail) fun code hcode =>
        .pure (h.binding hbefore hcode)
    | code code =>
      rw [Coroutine.lowerBindings]
      exact .pure (h.binding hbefore htail)
  | cons b rest =>
    intro hs hbefore hbindings htail
    obtain ⟨he, hrest⟩ := List.forall_mem_cons.1 hbindings
    rw [Coroutine.lowerBindings]
    split
    · refine Makes.bind (h.lowerBindings _ [] rest tail (hs.binding [b.1])
        (fun _ h => absurd h List.not_mem_nil) hrest htail) fun after hafter => ?_
      refine Makes.bind (h.fresh_makes (by decide)) fun k hk => ?_
      refine Makes.bind (h.receiver _ hafter hs.failure) fun cont hcont => ?_
      refine Makes.bind (h.lower _ b.2 (hs.delivering hk) he) fun code hcode => ?_
      exact .pure (h.binding hbefore (h.binding (List.forall_mem_singleton.2 hcont) hcode))
    · rename_i hneeds
      apply h.lowerBindings _ _ rest tail (hs.binding [b.1]) _ hrest htail
      exact List.forall_mem_append.2
        ⟨hbefore, List.forall_mem_singleton.2 (h.of_not_needs he hneeds)⟩
termination_by 3 * (weightBindings bindings + tail.weight) + 2
decreasing_by
  all_goals
    simp only [weightBindings, Tail.weight]
    grind [Expr.weight_pos]

/-- Lowering a cleanup. -/
theorem lowerCleanup (h : Carries table N P C) (s : Scope) (cleanup : Option Expr) :
  s.Gives N → (∀ e ∈ cleanup, P e) → Makes (·.Carries N C) (lowerCleanup table s cleanup)
  := by
  cases cleanup with
  | none =>
    intro hs _
    rw [Coroutine.lowerCleanup]
    exact .pure ⟨hs.success, hs.failure, fun _ h => absurd h List.not_mem_nil⟩
  | some e =>
    intro hs hcleanup
    have he := hcleanup e rfl
    have hblock : ∀ {last : Expr}, P last → P (.block [e, last]) := fun hlast =>
      h.block (List.forall_mem_cons.2 ⟨he, List.forall_mem_singleton.2 hlast⟩)
    rw [Coroutine.lowerCleanup]
    refine Makes.bind (h.fresh_makes (by decide)) fun success hk => ?_
    refine Makes.bind (h.fresh_makes (by decide)) fun v hv => ?_
    refine Makes.bind (h.handOver _ _ (hs.binding [v]) (hblock (h.name hv)))
      fun onValue honValue => ?_
    refine Makes.bind (h.receiver v honValue hs.failure) fun successCont hsuccess => ?_
    refine Makes.bind (h.fresh_makes (by decide)) fun failure hf => ?_
    refine Makes.bind (h.fresh_makes (by decide)) fun err herr => ?_
    refine Makes.bind (h.handOver _ _ (hs.binding [err]) (hblock (h.raise herr)))
      fun onError honError => ?_
    refine Makes.bind (h.receiver err honError hs.failure) fun failureCont hfailure => ?_
    exact .pure ⟨hk, hf, List.forall_mem_cons.2
      ⟨hsuccess, List.forall_mem_singleton.2 hfailure⟩⟩
termination_by 3 * weightCleanup cleanup + 16
decreasing_by
  all_goals
    simp only [weightCleanup, weight, weightAll, raising, Expr.block]
    omega

/-- Lowering clauses. -/
theorem lowerClauses (h : Carries table N P C) (s : Scope) (last : Landing)
    (clauses : List (Clause Expr)) :
  s.Gives N → last.Carries N C → (∀ c ∈ clauses, P c.body) →
    Makes (·.Carries N C) (lowerClauses table s last clauses)
  := by
  intro hs hlast hclauses
  rw [Coroutine.lowerClauses]
  split
  · exact .pure ⟨hlast.success, hlast.failure, fun _ h => absurd h List.not_mem_nil⟩
  · refine Makes.bind (h.fresh_makes (by decide)) fun failure hf => ?_
    refine Makes.bind (h.fresh_makes (by decide)) fun err herr => ?_
    refine Makes.bind (h.lowerBodies _ clauses (hs.continuingWith hlast.success hlast.failure)
      hclauses) fun selected hselected => ?_
    have hselect : C (.protect (raising (.var err)) selected none) :=
      h.node nofun nofun rfl rfl (Expr.forall_children_protect
        (h.callBuiltin (List.forall_mem_singleton.2 (h.var herr))) hselected nofun)
    refine Makes.bind (h.receiver err (h.calling hselect fun _ h => absurd h List.not_mem_nil)
      hlast.failure) fun cont hcont => ?_
    exact .pure ⟨hlast.success, hf, List.forall_mem_singleton.2 hcont⟩
termination_by 3 * weightClauses clauses + 3
decreasing_by
  omega

/-- Lowering the bodies of clauses. -/
theorem lowerBodies (h : Carries table N P C) (s : Scope) (clauses : List (Clause Expr)) :
  s.Gives N → (∀ c ∈ clauses, P c.body) →
    Makes (fun selected => ∀ c ∈ selected, C c.body) (lowerBodies table s clauses)
  := by
  cases clauses with
  | nil =>
    intro _ _
    rw [Coroutine.lowerBodies]
    exact .pure fun _ h => absurd h List.not_mem_nil
  | cons clause rest =>
    intro hs hclauses
    obtain ⟨he, hrest⟩ := List.forall_mem_cons.1 hclauses
    rw [Coroutine.lowerBodies]
    refine Makes.bind (h.handOver _ clause.body (hs.binding [clause.var]) he)
      fun code hcode => ?_
    refine Makes.bind (h.lowerBodies s rest hs hrest) fun selected hselected => ?_
    exact .pure (List.forall_mem_cons.2 ⟨h.lambda hcode, hselected⟩)
termination_by 3 * weightClauses clauses + 2
decreasing_by
  all_goals
    have := clause.body.weight_pos
    simp only [weightClauses]
    omega

end

/-- The function that a coroutine body becomes. -/
theorem compile (h : Carries table N P C) {body : Expr} (hbody : P body) :
  Makes C (Coroutine.compile table body)
  := by
  unfold Coroutine.compile
  refine Makes.bind (h.fresh_makes (by decide)) fun success hk => ?_
  refine Makes.bind (h.fresh_makes (by decide)) fun failure hf => ?_
  refine Makes.bind (h.handOver _ body ⟨hk, hf, nofun⟩ hbody) fun code hcode => ?_
  exact .pure (h.lambda hcode)

end Carries

end Skein.Coroutine
