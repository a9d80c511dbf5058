import Skein.Proofs.Places

/-!
# The rules of lowering

What lowering makes of a tree, rule by rule.  A derivation says how the code of a tree is put
together of the codes of its parts, and keeps a record of it: which names are minted, in their
order, and at which places of the code something is done with a tree of the body.  A tree that
need not be lowered is copied; a value is left to the code that uses it, since it is fixed in the
scope; or a handler is asked for the code of a call.  So what a derivation does not record as a
copy has been made by lowering.

The names in the scopes of a derivation are arbitrary, and so are those that it mints.  That
the minted names are new, and that lowering follows the rules, is said elsewhere.
-/

namespace Skein.Coroutine

open Expr (placedBindings)

/-- A name that lowering mints. -/
inductive Mint where
  | name (x : Symbol)
  /-- The head of a lowered loop, and the names that the loop binds. -/
  | head (x : Symbol) (params : List Symbol)
deriving DecidableEq

/-- The name that is minted. -/
def Mint.symbol : Mint → Symbol
  | name x | head x _ => x

/-- What is done with a tree of the body. -/
inductive Act where
  /-- The tree is copied. -/
  | copy
  /-- A value that is fixed in a scope is left to the code that uses it. -/
  | keep (s : Scope) (value used : Expr)
  /-- A handler is asked for the code of a call. -/
  | ask (handler : Handler) (site : Site) (args : List Expr)
  /-- A loop becomes a function of some parameters, which is bound to a name. -/
  | head (x : Symbol) (params : List Symbol)

/-- Whether a tree is copied. -/
def Act.isCopy : Act → Bool
  | copy => true
  | _ => false

/-- A tree is copied. -/
theorem Act.isCopy_iff {act : Act} :
  act.isCopy = true ↔ act = .copy
  := by
  cases act <;> simp [isCopy]

/-- A tree of the body, which lies in the body where the names `origin` are bound around it,
and what lowering has put in its place, which lies where the names `around` are bound around
it. -/
structure Mark where
  around : List Symbol
  origin : List Symbol
  source : Expr
  act : Act
  code : Expr

/-- The marks of a part of some code, where some names are bound around that part. -/
def under (Δ : List Symbol) (ms : List Mark) : List Mark :=
  ms.map fun m => { m with around := m.around ++ Δ }

/-- A tree is copied. -/
def Mark.copied (Γ : List Symbol) (e : Expr) : Mark := ⟨[], Γ, e, .copy, e⟩

/-- The initial values of some bindings are copied. -/
def copiedBindings (Γ : List Symbol) (bs : List (Symbol × Expr)) : List Mark :=
  (placedBindings [] bs).map fun p => ⟨p.1, p.1 ++ Γ, p.2, .copy, p.2⟩

/-- The value of a tree that has been evaluated in turn. -/
inductive Operand where
  /-- A tree of the body, which is evaluated where the value is used. -/
  | tree (e : Expr)
  /-- The name that the value of a tree is bound to. -/
  | minted (x : Symbol)

namespace Operand

/-- The code of a value. -/
def code : Operand → Expr
  | tree e => e
  | minted x => .var x

/-- Trees are their own code. -/
theorem map_code_tree (es : List Expr) :
  (es.map tree).map code = es
  := by
  rw [List.map_map]
  exact List.map_id es

/-- A tree of the body is copied to where its value is used. -/
def copies (Γ : List Symbol) : Operand → List Mark
  | tree e => [.copied Γ e]
  | minted _ => []

end Operand

/-- A body whose errors are handed to a continuation, under some name. -/
def guardedBy (e : Symbol) (body : Expr) (failure : Symbol) : Expr :=
  .protect body [⟨.any, e, .send failure (.var e)⟩] none

/-- A function of one value with a guarded body. -/
def continuation (x e : Symbol) (body : Expr) (failure : Symbol) : Expr :=
  .lambda none [x] (guardedBy e body failure)

/-- A call that raises the value of a name, selects a clause by it, and runs that clause. -/
def selection (e : Symbol) (clauses : List (Clause Expr)) : Expr :=
  .call (.protect (raising (.var e)) clauses none) []

/-- What is done with the values of trees that are evaluated in turn: the scope and the values
that there are in the end, and the code that uses them, with its record. -/
structure Finish where
  scope : Scope
  values : List Operand
  code : Expr
  marks : List Mark
  minted : List Mint

/-- What is to be lowered, and the names that are bound around it in the body. -/
inductive Job where
  /-- A tree, whose value is handed over. -/
  | tree (Γ : List Symbol) (s : Scope) (e : Expr)
  /-- A tree that suspends, whose value goes to a continuation with some parameter and body. -/
  | receive (Γ : List Symbol) (s : Scope) (e : Expr) (k x : Symbol) (body : Expr)
    (marks : List Mark)
  /-- Trees after some values, which are all used in the end. -/
  | inOrder (Γ : List Symbol) (s : Scope) (values : List Operand) (es : List Expr)
    (finish : Finish)
  /-- Trees for the value of the last one, and after them some trees that are made. -/
  | sequence (Γ : List Symbol) (s : Scope) (es made : List Expr)
  /-- Bindings, and what they end in. -/
  | bindings (Γ : List Symbol) (s : Scope) (bs : List (Symbol × Expr)) (tail : Tail)
  | cleanup (Γ : List Symbol) (s : Scope) (cleanup : Option Expr)
  /-- Clauses before a landing. -/
  | clauses (Γ : List Symbol) (s : Scope) (last : Landing) (clauses : List (Clause Expr))
  | bodies (Γ : List Symbol) (s : Scope) (clauses : List (Clause Expr))

/-- What something is lowered to. -/
inductive Output where
  | code (c : Expr)
  | landing (l : Landing)
  | clauses (cs : List (Clause Expr))

/-- The values that a loop is entered anew with: bindings of those that are not fixed, and the
code of all of them. -/
inductive Fixes (Γ : List Symbol) (s : Scope) :
    List Operand → List (Symbol × Expr) → List Expr → List Mark → List Mint → Prop where
  | nil : Fixes Γ s [] [] [] [] []
  | kept {v : Operand} {vs : List Operand} {temps : List (Symbol × Expr)} {values : List Expr}
    {ms : List Mark} {ns : List Mint} (hfixed : isFixed s v.code = true)
    (h : Fixes Γ s vs temps values ms ns) :
    Fixes Γ s (v :: vs) temps (v.code :: values)
      (under (temps.map (·.1)).reverse (v.copies Γ) ++ ms) ns
  | named {v : Operand} {vs : List Operand} {temps : List (Symbol × Expr)} {values : List Expr}
    {ms : List Mark} {ns : List Mint} (t : Symbol) (hfixed : isFixed s v.code = false)
    (h : Fixes Γ s vs temps values ms ns) :
    Fixes Γ s (v :: vs) ((t, v.code) :: temps) (.var t :: values)
      (v.copies Γ ++ under [t] ms) (.name t :: ns)

/-- The call of a loop's head from a thunk. -/
def reentryCall (head : Symbol) (values : List Expr) : Expr :=
  .call (.builtin .thunk) [.lambda none [] (.call (.var head) values)]

/-- What something is lowered to, with a record of the marks and of the minted names. -/
inductive Derives (table : Table) : Job → Output → List Mark → List Mint → Prop where
  -- trees
  | copied {Γ : List Symbol} {s : Scope} {e : Expr} (hn : needsLowering table s e = false) :
    Derives table (.tree Γ s e) (.code (.send s.success e)) [.copied Γ e] []
  | ask {Γ : List Symbol} {s s' : Scope} {f : Expr} {args : List Expr} {op : Symbol}
    {handler : Handler} {vs : List Operand} {made code : Expr} {ms : List Mark} {ns : List Mint}
    (hhandler : calledHandler? table f = some (op, handler))
    (hmade : handler ⟨op, s'.bound, s'.success, s'.failure⟩ (vs.map (·.code)) = .ok made)
    (h : Derives table (.inOrder Γ s [] args ⟨s', vs, made,
      ⟨[], Γ, .call f args, .ask handler ⟨op, s'.bound, s'.success, s'.failure⟩
        (vs.map (·.code)), made⟩ :: vs.flatMap (·.copies Γ), []⟩) (.code code) ms ns) :
    Derives table (.tree Γ s (.call f args)) (.code code) ms ns
  | call {Γ : List Symbol} {s s' : Scope} {f : Expr} {args : List Expr} {v : Operand}
    {vs : List Operand} {code : Expr} {ms : List Mark} {ns : List Mint}
    (hn : needsLowering table s (.call f args) = true) (hnone : calledHandler? table f = none)
    (h : Derives table (.inOrder Γ s [] (f :: args) ⟨s', v :: vs,
      .send s'.success (.call v.code (vs.map (·.code))), (v :: vs).flatMap (·.copies Γ), []⟩)
      (.code code) ms ns) :
    Derives table (.tree Γ s (.call f args)) (.code code) ms ns
  | cond {Γ : List Symbol} {s s' : Scope} {test yes no c c' code : Expr} {v : Operand}
    {ms ms₁ ms₂ : List Mark} {ns ns₁ ns₂ : List Mint}
    (hn : needsLowering table s (.cond test yes no) = true)
    (hyes : Derives table (.tree Γ s' yes) (.code c) ms₁ ns₁)
    (hno : Derives table (.tree Γ s' no) (.code c') ms₂ ns₂)
    (h : Derives table (.inOrder Γ s [] [test] ⟨s', [v], .cond v.code c c',
      v.copies Γ ++ (ms₁ ++ ms₂), ns₁ ++ ns₂⟩) (.code code) ms ns) :
    Derives table (.tree Γ s (.cond test yes no)) (.code code) ms ns
  | seq {Γ : List Symbol} {s : Scope} {es : List Expr} {code : Expr} {ms : List Mark}
    {ns : List Mint} (hn : needsLowering table s (.seq es) = true)
    (h : Derives table (.sequence Γ s es []) (.code code) ms ns) :
    Derives table (.tree Γ s (.seq es)) (.code code) ms ns
  | bind {Γ : List Symbol} {s : Scope} {bs : List (Symbol × Expr)} {body code : Expr}
    {ms : List Mark} {ns : List Mint} (hn : needsLowering table s (.bind bs body) = true)
    (h : Derives table (.bindings Γ s bs (.value body)) (.code code) ms ns) :
    Derives table (.tree Γ s (.bind bs body)) (.code code) ms ns
  | loop {Γ : List Symbol} {s : Scope} {bs : List (Symbol × Expr)} {body inner start : Expr}
    {ms₁ ms₂ : List Mark} {ns₁ ns₂ : List Mint} (x e : Symbol)
    (hn : needsLowering table s (.loop bs body) = true)
    (hbody : Derives table (.tree ((bs.map (·.1)).reverse ++ Γ)
      ((s.inLoop ⟨x, bs.length⟩).binding (bs.map (·.1))) body) (.code inner) ms₁ ns₁)
    (hstart : Derives table (.bindings Γ (s.binding [x]) bs
      (.code (.call (.var x) ((bs.map (·.1)).map .var)))) (.code start) ms₂ ns₂) :
    Derives table (.tree Γ s (.loop bs body))
      (.code (.binding [(x, .lambda (some x) (bs.map (·.1)) (guardedBy e inner s.failure))] start))
      (⟨[], Γ, .loop bs body, .head x (bs.map (·.1)),
          .binding [(x, .lambda (some x) (bs.map (·.1)) (guardedBy e inner s.failure))] start⟩ ::
        (under ((bs.map (·.1)).reverse ++ [x]) ms₁ ++ under [x] ms₂))
      (.head x (bs.map (·.1)) :: (ns₁ ++ .name e :: ns₂))
  | recur {Γ : List Symbol} {s s' : Scope} {head : Head} {args : List Expr} {vs : List Operand}
    {temps : List (Symbol × Expr)} {values : List Expr} {code : Expr} {ms ms' : List Mark}
    {ns ns' : List Mint} (hhead : s.head = some head) (harity : args.length = head.arity)
    (hfixes : Fixes Γ s' vs temps values ms' ns')
    (h : Derives table (.inOrder Γ s [] args ⟨s', vs,
      .binding temps (reentryCall head.name values),
      (vs.filter fun v => isFixed s' v.code).map (fun v => ⟨[], Γ, .recur args,
        .keep s' v.code (reentryCall head.name values),
        .binding temps (reentryCall head.name values)⟩) ++ ms', ns'⟩) (.code code) ms ns) :
    Derives table (.tree Γ s (.recur args)) (.code code) ms ns
  | define {Γ : List Symbol} {s s' : Scope} {x : Symbol} {e code : Expr} {v : Operand}
    {ms : List Mark} {ns : List Mint} (hn : needsLowering table s (.define x e) = true)
    (h : Derives table (.inOrder Γ s [] [e] ⟨s', [v], .send s'.success (.define x v.code),
      v.copies Γ, []⟩) (.code code) ms ns) :
    Derives table (.tree Γ s (.define x e)) (.code code) ms ns
  | plain {Γ : List Symbol} {s : Scope} {body code : Expr} {ms : List Mark} {ns : List Mint}
    (hn : needsLowering table s (.protect body [] none) = true)
    (h : Derives table (.tree Γ s body) (.code code) ms ns) :
    Derives table (.tree Γ s (.protect body [] none)) (.code code) ms ns
  | protect {Γ : List Symbol} {s : Scope} {body c : Expr} {clauses : List (Clause Expr)}
    {cleanup : Option Expr} {last first : Landing} {ms₁ ms₂ ms₃ : List Mark}
    {ns₁ ns₂ ns₃ : List Mint} (e : Symbol)
    (hn : needsLowering table s (.protect body clauses cleanup) = true)
    (hlast : Derives table (.cleanup Γ s cleanup) (.landing last) ms₁ ns₁)
    (hfirst : Derives table (.clauses Γ (s.binding (last.bindings.map (·.1))) last clauses)
      (.landing first) ms₂ ns₂)
    (hbody : Derives table (.tree Γ (((s.binding (last.bindings.map (·.1))).binding
      (first.bindings.map (·.1))).continuingWith first.success first.failure) body)
      (.code c) ms₃ ns₃) :
    Derives table (.tree Γ s (.protect body clauses cleanup))
      (.code (.binding (last.bindings ++ first.bindings) (guardedBy e c first.failure)))
      (ms₁ ++ (under (last.bindings.map (·.1)).reverse ms₂ ++
        under ((last.bindings ++ first.bindings).map (·.1)).reverse ms₃))
      (ns₁ ++ (ns₂ ++ (ns₃ ++ [.name e])))
  -- a tree that suspends
  | receive {Γ : List Symbol} {s : Scope} {e body code : Expr} {ms ms' : List Mark}
    {ns : List Mint} (k x err : Symbol) (hn : needsLowering table s e = true)
    (h : Derives table (.tree Γ (s.delivering k) e) (.code code) ms' ns) :
    Derives table (.receive Γ s e k x body ms)
      (.code (.binding [(k, continuation x err body s.failure)] code))
      (under [x] ms ++ under [k] ms') (.name err :: ns)
  -- trees in turn
  | finish {Γ : List Symbol} {s : Scope} {values : List Operand} {es : List Expr} {code : Expr}
    {ms : List Mark} {ns : List Mint} (hn : ∀ e ∈ es, needsLowering table s e = false) :
    Derives table (.inOrder Γ s values es ⟨s, values ++ es.map .tree, code, ms, ns⟩)
      (.code code) ms ns
  | suspended {Γ : List Symbol} {s : Scope} {values : List Operand} {e body code : Expr}
    {es : List Expr} {finish : Finish} {ms₁ ms₂ : List Mark} {ns₁ ns₂ : List Mint} (v k : Symbol)
    (hrest : Derives table (.inOrder Γ (s.binding [v]) (values ++ [.minted v]) es finish)
      (.code body) ms₁ ns₁)
    (h : Derives table (.receive Γ s e k v body ms₁) (.code code) ms₂ ns₂) :
    Derives table (.inOrder Γ s values (e :: es) finish) (.code code) ms₂
      (.name v :: (ns₁ ++ .name k :: ns₂))
  | kept {Γ : List Symbol} {s : Scope} {values : List Operand} {e code : Expr} {es : List Expr}
    {finish : Finish} {ms : List Mark} {ns : List Mint}
    (hn : needsLowering table s e = false) (hes : ∃ d ∈ es, needsLowering table s d = true)
    (hfixed : isFixed s e = true)
    (h : Derives table (.inOrder Γ s (values ++ [.tree e]) es finish) (.code code) ms ns) :
    Derives table (.inOrder Γ s values (e :: es) finish) (.code code)
      (⟨[], Γ, e, .keep s e finish.code, code⟩ :: ms) ns
  | named {Γ : List Symbol} {s : Scope} {values : List Operand} {e body : Expr} {es : List Expr}
    {finish : Finish} {ms : List Mark} {ns : List Mint} (t : Symbol)
    (hn : needsLowering table s e = false) (hes : ∃ d ∈ es, needsLowering table s d = true)
    (hfixed : isFixed s e = false)
    (h : Derives table (.inOrder Γ (s.binding [t]) (values ++ [.minted t]) es finish)
      (.code body) ms ns) :
    Derives table (.inOrder Γ s values (e :: es) finish) (.code (.binding [(t, e)] body))
      (.copied Γ e :: under [t] ms) (.name t :: ns)
  -- sequences
  | sequence {Γ : List Symbol} {s : Scope} {es made : List Expr}
    (hn : ∀ e ∈ es, needsLowering table s e = false) :
    Derives table (.sequence Γ s es made) (.code (.send s.success (.block (es ++ made))))
      (es.map (.copied Γ)) []
  | sequenceLast {Γ : List Symbol} {s : Scope} {before : List Expr} {e code : Expr}
    {ms : List Mark} {ns : List Mint} (hn : ∀ b ∈ before, needsLowering table s b = false)
    (he : needsLowering table s e = true)
    (h : Derives table (.tree Γ s e) (.code code) ms ns) :
    Derives table (.sequence Γ s (before ++ [e]) []) (.code (.block (before ++ [code])))
      (before.map (.copied Γ) ++ ms) ns
  | sequenceMore {Γ : List Symbol} {s : Scope} {before es made : List Expr} {e after code : Expr}
    {ms₁ ms₂ : List Mark} {ns₁ ns₂ : List Mint} (k ignored : Symbol)
    (hn : ∀ b ∈ before, needsLowering table s b = false) (hne : es ++ made ≠ [])
    (hafter : Derives table (.sequence Γ (s.binding [ignored]) es made) (.code after) ms₁ ns₁)
    (h : Derives table (.receive Γ s e k ignored after ms₁) (.code code) ms₂ ns₂) :
    Derives table (.sequence Γ s (before ++ e :: es) made) (.code (.block (before ++ [code])))
      (before.map (.copied Γ) ++ ms₂) (.name k :: .name ignored :: (ns₁ ++ ns₂))
  -- bindings
  | bindingsValue {Γ : List Symbol} {s : Scope} {bs : List (Symbol × Expr)} {body code : Expr}
    {ms : List Mark} {ns : List Mint} (hn : ∀ b ∈ bs, needsLowering table s b.2 = false)
    (h : Derives table (.tree ((bs.map (·.1)).reverse ++ Γ) (s.binding (bs.map (·.1))) body)
      (.code code) ms ns) :
    Derives table (.bindings Γ s bs (.value body)) (.code (.binding bs code))
      (copiedBindings Γ bs ++ under (bs.map (·.1)).reverse ms) ns
  | bindingsCode {Γ : List Symbol} {s : Scope} {bs : List (Symbol × Expr)} {code : Expr}
    (hn : ∀ b ∈ bs, needsLowering table s b.2 = false) :
    Derives table (.bindings Γ s bs (.code code)) (.code (.binding bs code))
      (copiedBindings Γ bs) []
  | bindingsMore {Γ : List Symbol} {s : Scope} {before bs : List (Symbol × Expr)} {x : Symbol}
    {e after code : Expr} {tail : Tail} {ms₁ ms₂ : List Mark} {ns₁ ns₂ : List Mint} (k : Symbol)
    (hn : ∀ b ∈ before, needsLowering table s b.2 = false)
    (hafter : Derives table (.bindings (x :: ((before.map (·.1)).reverse ++ Γ))
      ((s.binding (before.map (·.1))).binding [x]) bs tail) (.code after) ms₁ ns₁)
    (h : Derives table (.receive ((before.map (·.1)).reverse ++ Γ)
      (s.binding (before.map (·.1))) e k x after ms₁) (.code code) ms₂ ns₂) :
    Derives table (.bindings Γ s (before ++ (x, e) :: bs) tail) (.code (.binding before code))
      (copiedBindings Γ before ++ under (before.map (·.1)).reverse ms₂) (ns₁ ++ .name k :: ns₂)
  -- protected bodies
  | noCleanup {Γ : List Symbol} {s : Scope} :
    Derives table (.cleanup Γ s none) (.landing ⟨[], s.success, s.failure⟩) [] []
  | cleanup {Γ : List Symbol} {s : Scope} {e c c' : Expr} {ms₁ ms₂ : List Mark}
    {ns₁ ns₂ : List Mint} (k v g f err g' : Symbol)
    (hvalue : Derives table (.sequence Γ (s.binding [v]) [e] [.var v]) (.code c) ms₁ ns₁)
    (herror : Derives table (.sequence Γ (s.binding [err]) [e] [raising (.var err)])
      (.code c') ms₂ ns₂) :
    Derives table (.cleanup Γ s (some e))
      (.landing ⟨[(k, continuation v g c s.failure), (f, continuation err g' c' s.failure)], k, f⟩)
      (under [v] ms₁ ++ under [err, k] ms₂)
      (.name k :: .name v :: (ns₁ ++ .name g :: .name f :: .name err :: (ns₂ ++ [.name g'])))
  | noClauses {Γ : List Symbol} {s : Scope} {last : Landing} :
    Derives table (.clauses Γ s last []) (.landing ⟨[], last.success, last.failure⟩) [] []
  | clauses {Γ : List Symbol} {s : Scope} {last : Landing} {clauses selected : List (Clause Expr)}
    {ms : List Mark} {ns : List Mint} (f err g : Symbol) (hne : clauses ≠ [])
    (h : Derives table (.bodies Γ (s.continuingWith last.success last.failure) clauses)
      (.clauses selected) ms ns) :
    Derives table (.clauses Γ s last clauses)
      (.landing ⟨[(f, continuation err g (selection err selected) last.failure)], last.success, f⟩)
      (under [err] ms) (.name f :: .name err :: (ns ++ [.name g]))
  | noBodies {Γ : List Symbol} {s : Scope} :
    Derives table (.bodies Γ s []) (.clauses []) [] []
  | bodies {Γ : List Symbol} {s : Scope} {selector : Selector} {x : Symbol} {e code : Expr}
    {clauses selected : List (Clause Expr)} {ms₁ ms₂ : List Mark} {ns₁ ns₂ : List Mint}
    (h : Derives table (.tree (x :: Γ) (s.binding [x]) e) (.code code) ms₁ ns₁)
    (hrest : Derives table (.bodies Γ s clauses) (.clauses selected) ms₂ ns₂) :
    Derives table (.bodies Γ s (⟨selector, x, e⟩ :: clauses))
      (.clauses (⟨selector, x, .lambda none [] code⟩ :: selected))
      (under [x] ms₁ ++ ms₂) (ns₁ ++ ns₂)

/-- What a whole body is lowered to, with its record. -/
inductive Compiles (table : Table) (body : Expr) : Expr → List Mark → List Mint → Prop where
  | mk {code : Expr} {ms : List Mark} {ns : List Mint} (success failure : Symbol)
    (h : Derives table (.tree [] (.ofContinuations success failure) body) (.code code) ms ns) :
    Compiles table body (.lambda none [success, failure] code) (under [failure, success] ms)
      (.name success :: .name failure :: ns)

end Skein.Coroutine
