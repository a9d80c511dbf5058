import Skein.Proofs.Derivation.Scopes
import Skein.Proofs.Lowering

/-!
# Counting in the code

What is spread over the code of a body has been copied from the body, is bound by a name that has
been minted, or is one of the few references that lowering puts around the copies.  A measure
says what counts: atoms, the names that are bound, and the heads of functions that refer to
themselves.  For every measure that does not count the names of the body, the total of the code
is that of the copies and of the minted names, up to a list of generated atoms that is the same
for all measures.
-/

namespace Skein.Coroutine

open Expr (sumAll)

/-- What counts in a tree. -/
structure Measure where
  /-- An atom. -/
  atom : Expr → Nat
  /-- A name that is bound by a binding, as a parameter, or by a catch clause. -/
  binder : Symbol → Nat
  /-- A function that refers to itself by a name, and has some parameters. -/
  header : Symbol → List Symbol → Nat

namespace Measure

variable (f : Measure)

/-- What counts in a tree itself. -/
def node (e : Expr) : Nat :=
  (if e.isAtom then f.atom e else 0) + (e.binders.map f.binder).sum +
    match e.header? with
    | some (x, params) => f.header x params
    | none => 0

/-- What counts in a tree and its parts. -/
def total (e : Expr) : Nat := e.sum f.node

/-- What counts in some trees. -/
def totalAll (es : List Expr) : Nat := sumAll f.node es

/-- What counts in some bindings. -/
def bindings (bs : List (Symbol × Expr)) : Nat := (bs.map fun b => f.binder b.1 + f.total b.2).sum

/-- What counts in some clauses. -/
def clauses (cs : List (Clause Expr)) : Nat := (cs.map fun c => f.binder c.var + f.total c.body).sum

/-- What counts when a name is minted. -/
def mint : Mint → Nat
  | .name x => f.binder x
  | .head x params => f.binder x + f.header x params

/-- The names of a body do not count. -/
def Quiet (body : Expr) : Prop := ∀ x, body.Contains x → f.binder x = 0

@[simp]
theorem totalAll_nil : f.totalAll [] = 0 := rfl

@[simp]
theorem totalAll_cons (e : Expr) (es : List Expr) :
  f.totalAll (e :: es) = f.total e + f.totalAll es
  := Expr.sumAll_cons

@[simp]
theorem totalAll_append (es ds : List Expr) :
  f.totalAll (es ++ ds) = f.totalAll es + f.totalAll ds
  := Expr.sumAll_append

@[simp]
theorem bindings_nil : f.bindings [] = 0 := rfl

@[simp]
theorem bindings_cons (b : Symbol × Expr) (bs : List (Symbol × Expr)) :
  f.bindings (b :: bs) = f.binder b.1 + f.total b.2 + f.bindings bs
  := List.sum_cons

@[simp]
theorem bindings_append (bs ds : List (Symbol × Expr)) :
  f.bindings (bs ++ ds) = f.bindings bs + f.bindings ds
  := by
  rw [bindings, List.map_append, List.sum_append]
  rfl

@[simp]
theorem clauses_nil : f.clauses [] = 0 := rfl

@[simp]
theorem clauses_cons (c : Clause Expr) (cs : List (Clause Expr)) :
  f.clauses (c :: cs) = f.binder c.var + f.total c.body + f.clauses cs
  := List.sum_cons

/-! ### The code that is made -/

/-- The total of a tree is that of its pieces and what counts in the tree itself. -/
theorem total_eq (e : Expr) :
  f.total e = f.node e + f.totalAll e.pieces
  := Expr.sum_eq f.node e

/-- The names that are bound and the values that they are bound to. -/
theorem bindings_eq (bs : List (Symbol × Expr)) :
  f.bindings bs = ((bs.map (·.1)).map f.binder).sum + f.totalAll (bs.map (·.2))
  := by
  induction bs with
  | nil => rfl
  | cons b bs ih =>
    simp only [bindings_cons, List.map_cons, List.sum_cons, totalAll_cons, ih]
    omega

/-- The names that clauses bind and their bodies. -/
theorem clauses_eq (cs : List (Clause Expr)) :
  f.clauses cs = ((cs.map (·.var)).map f.binder).sum + f.totalAll (cs.map (·.body))
  := by
  induction cs with
  | nil => rfl
  | cons c cs ih =>
    simp only [clauses_cons, List.map_cons, List.sum_cons, totalAll_cons, ih]
    omega

@[simp]
theorem total_literal (d : Datum) : f.total (.literal d) = f.atom (.literal d) := by
  simp [total_eq, node, Expr.isAtom, Expr.binders, Expr.header?, Expr.pieces, Expr.children]

@[simp]
theorem total_var (x : Symbol) : f.total (.var x) = f.atom (.var x) := by
  simp [total_eq, node, Expr.isAtom, Expr.binders, Expr.header?, Expr.pieces, Expr.children]

@[simp]
theorem total_builtin (b : Builtin) : f.total (.builtin b) = f.atom (.builtin b) := by
  simp [total_eq, node, Expr.isAtom, Expr.binders, Expr.header?, Expr.pieces, Expr.children]

@[simp]
theorem total_call (g : Expr) (args : List Expr) :
  f.total (.call g args) = f.total g + f.totalAll args
  := by
  rw [total_eq]
  simp [node, Expr.isAtom, Expr.binders, Expr.header?, Expr.pieces, Expr.children]

@[simp]
theorem total_cond (test yes no : Expr) :
  f.total (.cond test yes no) = f.total test + (f.total yes + f.total no)
  := by
  rw [total_eq]
  simp [node, Expr.isAtom, Expr.binders, Expr.header?, Expr.pieces, Expr.children]

@[simp]
theorem total_define (x : Symbol) (e : Expr) : f.total (.define x e) = f.total e := by
  rw [total_eq]
  simp [node, Expr.isAtom, Expr.binders, Expr.header?, Expr.pieces, Expr.children]

@[simp]
theorem total_send (k : Symbol) (e : Expr) :
  f.total (.send k e) = f.atom (.var k) + f.total e
  := by
  simp [Expr.send]

/-- A sequence of some trees. -/
theorem total_block {es : List Expr} (hne : es ≠ []) : f.total (.block es) = f.totalAll es := by
  unfold Expr.block
  split
  · exact absurd rfl hne
  · simp
  · rw [total_eq]
    simp [node, Expr.isAtom, Expr.binders, Expr.header?, Expr.pieces, Expr.children]

@[simp]
theorem total_binding (bs : List (Symbol × Expr)) (e : Expr) :
  f.total (.binding bs e) = f.bindings bs + f.total e
  := by
  unfold Expr.binding
  split
  · rename_i hnil
    rw [List.isEmpty_iff.1 hnil, bindings_nil, Nat.zero_add]
  · rw [total_eq, bindings_eq]
    simp [node, Expr.isAtom, Expr.binders, Expr.header?, Expr.pieces, Expr.children, Nat.add_assoc]

@[simp]
theorem total_function (params : List Symbol) (e : Expr) :
  f.total (.lambda none params e) = (params.map f.binder).sum + f.total e
  := by
  rw [total_eq]
  simp [node, Expr.isAtom, Expr.binders, Expr.header?, Expr.pieces]

@[simp]
theorem total_head (x : Symbol) (params : List Symbol) (e : Expr) :
  f.total (.lambda (some x) params e) = (params.map f.binder).sum + f.header x params + f.total e
  := by
  rw [total_eq]
  simp [node, Expr.isAtom, Expr.binders, Expr.header?, Expr.pieces]

@[simp]
theorem total_protect (e : Expr) (cs : List (Clause Expr)) :
  f.total (.protect e cs none) = f.total e + f.clauses cs
  := by
  rw [total_eq, clauses_eq]
  simp only [node, Expr.isAtom, Expr.binders, Expr.header?, Expr.pieces, Expr.children,
    Option.toList_none, List.append_nil, totalAll_cons, Bool.false_eq_true, if_false]
  omega

@[simp]
theorem total_guardedBy (e : Symbol) (body : Expr) (failure : Symbol) :
  f.total (guardedBy e body failure) =
    f.total body + (f.binder e + (f.atom (.var failure) + f.atom (.var e)))
  := by
  simp [guardedBy]

@[simp]
theorem total_continuation (x e : Symbol) (body : Expr) (failure : Symbol) :
  f.total (continuation x e body failure) =
    f.binder x + (f.total body + (f.binder e + (f.atom (.var failure) + f.atom (.var e))))
  := by
  simp [continuation]

@[simp]
theorem total_raising (e : Expr) :
  f.total (raising e) = f.atom (.builtin .throw) + f.total e
  := by
  simp [raising]

@[simp]
theorem total_selection (e : Symbol) (cs : List (Clause Expr)) :
  f.total (selection e cs) = f.atom (.builtin .throw) + f.atom (.var e) + f.clauses cs
  := by
  simp [selection]

@[simp]
theorem total_reentryCall (head : Symbol) (values : List Expr) :
  f.total (reentryCall head values) =
    f.atom (.builtin .thunk) + (f.atom (.var head) + f.totalAll values)
  := by
  simp [reentryCall]

end Measure

/-! ### The record of a derivation -/

/-- The trees that are copied. -/
def copiedTrees (ms : List Mark) : List Expr := (ms.filter (·.act.isCopy)).map (·.code)

/-- What a function gives for the trees that are copied, added up. -/
def weigh (w : Expr → Nat) (ms : List Mark) : Nat := ((copiedTrees ms).map w).sum

section weigh

variable {w : Expr → Nat} {Γ Δ : List Symbol} {ms : List Mark} {bs : List (Symbol × Expr)}

@[simp]
theorem weigh_nil : weigh w [] = 0 := rfl

@[simp]
theorem weigh_append (ms ms' : List Mark) : weigh w (ms ++ ms') = weigh w ms + weigh w ms' := by
  rw [weigh, copiedTrees, List.filter_append, List.map_append, List.map_append, List.sum_append]
  rfl

/-- What is copied in a part of the code. -/
theorem copiedTrees_under : copiedTrees (under Δ ms) = copiedTrees ms := by
  rw [copiedTrees, under, List.filter_map, List.map_map]
  rfl

@[simp]
theorem weigh_under : weigh w (under Δ ms) = weigh w ms := by
  rw [weigh, copiedTrees_under]
  rfl

/-- A tree is copied. -/
@[simp]
theorem weigh_copied (e : Expr) : weigh w (.copied Γ e :: ms) = w e + weigh w ms :=
  List.sum_cons

/-- Something else is done with a tree. -/
theorem weigh_cons_of_ne {m : Mark} (hm : m.act.isCopy = false) :
  weigh w (m :: ms) = weigh w ms
  := by
  rw [weigh, copiedTrees, List.filter_cons, hm, if_neg Bool.false_ne_true]
  rfl

/-- A value is left to the code that uses it. -/
@[simp]
theorem weigh_keep {s : Scope} {e value used code : Expr} :
  weigh w (⟨Δ, Γ, e, .keep s value used, code⟩ :: ms) = weigh w ms
  := weigh_cons_of_ne rfl

/-- A handler is asked. -/
@[simp]
theorem weigh_ask {handler : Handler} {site : Site} {args : List Expr} {e code : Expr} :
  weigh w (⟨Δ, Γ, e, .ask handler site args, code⟩ :: ms) = weigh w ms
  := weigh_cons_of_ne rfl

/-- A loop becomes a function. -/
@[simp]
theorem weigh_head {x : Symbol} {params : List Symbol} {e code : Expr} :
  weigh w (⟨Δ, Γ, e, .head x params, code⟩ :: ms) = weigh w ms
  := weigh_cons_of_ne rfl

/-- What is copied does not weigh anything. -/
theorem weigh_eq_zero (h : ∀ c ∈ copiedTrees ms, w c = 0) : weigh w ms = 0 := by
  apply List.sum_eq_zero
  intro n hn
  obtain ⟨c, hc, rfl⟩ := List.mem_map.1 hn
  exact h c hc

/-- Values are left to the code that uses them. -/
@[simp]
theorem weigh_map_keep {s : Scope} {e used code : Expr} (vs : List Operand) :
  weigh w (vs.map fun v => ⟨Δ, Γ, e, .keep s v.code used, code⟩) = 0
  := by
  induction vs with
  | nil => rfl
  | cons v vs ih => exact weigh_keep.trans ih

/-- Trees are copied. -/
@[simp]
theorem weigh_map_copied (es : List Expr) : weigh w (es.map (.copied Γ)) = (es.map w).sum := by
  induction es with
  | nil => rfl
  | cons e es ih => rw [List.map_cons, weigh_copied, ih, List.map_cons, List.sum_cons]

/-- Initial values are copied. -/
@[simp]
theorem weigh_copiedBindings : weigh w (copiedBindings Γ bs) = (bs.map fun b => w b.2).sum := by
  have hcopies : copiedTrees (copiedBindings Γ bs) = (Expr.placedBindings [] bs).map (·.2) := by
    rw [copiedTrees, copiedBindings, List.filter_map, List.map_map]
    exact congrArg _ (List.filter_eq_self.2 fun _ _ => rfl)
  rw [weigh, hcopies, Expr.map_snd_placedBindings, List.map_map]
  rfl

end weigh

/-- What a derivation has recorded. -/
def recorded (ms : List Mark) (ns : List Mint) (f : Measure) : Nat :=
  weigh f.total ms + (ns.map f.mint).sum

/-! ### Balances -/

/-- Two totals differ by the total of some atoms of `G`, which are the same for all measures that
do not count the names of a body. -/
def Balanced (G : Expr → Prop) (body : Expr) (q r : Measure → Nat) : Prop :=
  ∃ gs : List Expr, (∀ g ∈ gs, G g) ∧ ∀ f : Measure, f.Quiet body → q f = r f + (gs.map f.atom).sum

section

variable {table : Table} {body : Expr} {N : Symbol → Prop} {G : Expr → Prop}
  {q q' r r' : Measure → Nat} {s : Scope} {Γ : List Symbol}

namespace Balanced

/-- Equal totals. -/
theorem of_eq (h : ∀ f : Measure, f.Quiet body → q f = r f) :
  Balanced G body q r
  := ⟨[], List.forall_mem_nil _, h⟩

/-- An atom. -/
theorem atom {g : Expr} (hg : G g) :
  Balanced G body (·.atom g) fun _ => 0
  := ⟨[g], List.forall_mem_singleton.2 hg, fun f _ => by simp⟩

/-- Totals that are added up. -/
theorem add (h : Balanced G body q r) (h' : Balanced G body q' r') :
  Balanced G body (fun f => q f + q' f) (fun f => r f + r' f)
  := by
  obtain ⟨gs, hgs, heq⟩ := h
  obtain ⟨gs', hgs', heq'⟩ := h'
  refine ⟨gs ++ gs', List.forall_mem_append.2 ⟨hgs, hgs'⟩, fun f hf => ?_⟩
  have hq := heq f hf
  have hq' := heq' f hf
  change q f + q' f = r f + r' f + _
  rw [List.map_append, List.sum_append]
  omega

/-- Totals that differ as much as other ones. -/
theorem of (h : Balanced G body q r)
    (heq : ∀ f : Measure, f.Quiet body → q' f + r f = r' f + q f) :
  Balanced G body q' r'
  := by
  obtain ⟨gs, hgs, hsum⟩ := h
  refine ⟨gs, hgs, fun f hf => ?_⟩
  have := heq f hf
  have := hsum f hf
  omega

/-- References to some names. -/
theorem vars {xs : List Symbol} (hxs : ∀ x ∈ xs, G (.var x)) :
  Balanced G body (·.totalAll (xs.map .var)) fun _ => 0
  := by
  induction xs with
  | nil => exact of_eq fun _ _ => rfl
  | cons x xs ih =>
    obtain ⟨hx, hxs⟩ := List.forall_mem_cons.1 hxs
    exact ((atom hx).add (ih hxs)).of fun f _ => by simp

/-- A value that is used. -/
theorem value {v : Operand} (hv : ∀ x, v = .minted x → G (.var x)) :
  Balanced G body (·.total v.code) fun f => weigh f.total (v.copies Γ)
  := by
  cases v with
  | tree e => exact of_eq fun f _ => by simp [Operand.code, Operand.copies]
  | minted x => exact (atom (hv x rfl)).of fun f _ => by simp [Operand.code, Operand.copies]

/-- Values that are used. -/
theorem values {vs : List Operand} (hvs : ∀ x, .minted x ∈ vs → G (.var x)) :
  Balanced G body (·.totalAll (vs.map (·.code))) fun f => weigh f.total (vs.flatMap (·.copies Γ))
  := by
  induction vs with
  | nil => exact of_eq fun _ _ => rfl
  | cons v vs ih =>
    have hv : Balanced G body (·.total v.code) fun f => weigh f.total (v.copies Γ) :=
      value fun x hx => hvs x (hx ▸ List.mem_cons_self)
    have hvs := ih fun x hx => hvs x (List.mem_cons_of_mem _ hx)
    exact (hv.add hvs).of fun f _ => by simp; omega

end Balanced

/-- Names of a body. -/
theorem Measure.Quiet.names {f : Measure} (hf : f.Quiet body) {xs : List Symbol}
    (hxs : ∀ x ∈ xs, body.Contains x) :
  (xs.map f.binder).sum = 0
  := by
  induction xs with
  | nil => rfl
  | cons x xs ih =>
    obtain ⟨hx, hxs⟩ := List.forall_mem_cons.1 hxs
    rw [List.map_cons, List.sum_cons, hf x hx, ih hxs]

/-- Bindings of names of a body. -/
theorem Measure.Quiet.bindings {f : Measure} (hf : f.Quiet body) {bs : List (Symbol × Expr)}
    (hbs : ∀ x ∈ bs.map (·.1), body.Contains x) :
  f.bindings bs = (bs.map fun b => f.total b.2).sum
  := by
  rw [bindings_eq, hf.names hbs, Nat.zero_add, Measure.totalAll, sumAll, List.map_map]
  rfl

/-- The atoms that lowering generates: references to names of `N`, a few held functions, and
what handlers add to their arguments. -/
structure Generates (table : Table) (body : Expr) (N : Symbol → Prop) (G : Expr → Prop) :
    Prop where
  name {x : Symbol} : N x → G (.var x)
  thunk : G (.builtin .thunk)
  throw : G (.builtin .throw)
  loop (bs : List (Symbol × Expr)) (e : Expr) : (Expr.loop bs e).PartOf body →
    ∀ x ∈ bs.map (·.1), N x
  handler {f : Expr} {op : Symbol} {handler : Handler} {site : Site} {args : List Expr}
    {made : Expr} : calledHandler? table f = some (op, handler) → N site.success →
    N site.failure → handler site args = .ok made →
    Balanced G body (·.total made) (·.totalAll args)

/-- A guarded body. -/
theorem Generates.guardedBy (hg : Generates table body N G) {c : Expr} {e failure : Symbol}
    (hc : Balanced G body (·.total c) r) (he : N e) (hfailure : N failure) :
  Balanced G body (·.total (guardedBy e c failure)) fun f => r f + f.binder e
  := by
  refine ((hc.add (.atom (hg.name hfailure))).add (.atom (hg.name he))).of fun f _ => ?_
  rw [Measure.total_guardedBy]
  omega

/-- A continuation. -/
theorem Generates.continuation (hg : Generates table body N G) {c : Expr} {e failure : Symbol}
    (x : Symbol) (hc : Balanced G body (·.total c) r) (he : N e) (hfailure : N failure) :
  Balanced G body (·.total (continuation x e c failure))
    fun f => r f + (f.binder x + f.binder e)
  := by
  refine (hg.guardedBy hc he hfailure).of fun f _ => ?_
  rw [Measure.total_continuation, Measure.total_guardedBy]
  omega

/-- A clause that is selected. -/
theorem Generates.selection (hg : Generates table body N G) {cs : List (Clause Expr)} {e : Symbol}
    (hcs : Balanced G body (·.clauses cs) r) (he : N e) :
  Balanced G body (·.total (selection e cs)) r
  := by
  refine ((hcs.add (.atom hg.throw)).add (.atom (hg.name he))).of fun f _ => ?_
  rw [Measure.total_selection]
  omega

/-- What counts in what something has been lowered to. -/
def Output.total (out : Output) (f : Measure) : Nat :=
  match out with
  | .code c => f.total c
  | .landing l => f.bindings l.bindings
  | .clauses cs => f.clauses cs

/-- What has been lowered is balanced with its record, when what is put into it is. -/
def Job.Balances (N : Symbol → Prop) (G : Expr → Prop) (body : Expr) (out : Output)
    (ms : List Mark) (ns : List Mint) : Job → Prop
  | .tree _ s _ | .cleanup _ s _ | .bodies _ s _ =>
    s.Gives N → Balanced G body out.total (recorded ms ns)
  | .receive _ s _ k x c given => s.Gives N → N k → ∀ r : Measure → Nat,
    Balanced G body (·.total c) (fun f => weigh f.total given + r f) →
    Balanced G body out.total fun f => recorded ms ns f + (f.binder k + f.binder x + r f)
  | .inOrder _ s values _ finish => s.Gives N → (∀ x, .minted x ∈ values → N x) →
    (finish.scope.Gives N → (∀ x, .minted x ∈ finish.values → N x) →
      (∀ n ∈ finish.minted, N n.symbol) →
      Balanced G body (·.total finish.code) (recorded finish.marks finish.minted)) →
    Balanced G body out.total (recorded ms ns)
  | .sequence _ s es made => es ++ made ≠ [] → s.Gives N →
    Balanced G body (·.totalAll made) (fun _ => 0) → Balanced G body out.total (recorded ms ns)
  | .bindings _ s _ tail => s.Gives N →
    (∀ c, tail = .code c → Balanced G body (·.total c) fun _ => 0) →
    Balanced G body out.total (recorded ms ns)
  | .clauses _ s last _ => s.Gives N → N last.success → N last.failure →
    Balanced G body out.total (recorded ms ns)

/-- The values that a loop is entered anew with are balanced with their record. -/
theorem Fixes.balanced (hg : Generates table body N G) {vs : List Operand}
    {temps : List (Symbol × Expr)} {values : List Expr} {ms : List Mark} {ns : List Mint}
    (h : Fixes Γ s vs temps values ms ns) (hvs : ∀ x, .minted x ∈ vs → N x)
    (hns : ∀ n ∈ ns, N n.symbol) :
  Balanced G body (fun f => f.bindings temps + f.totalAll values) (recorded ms ns)
  := by
  induction h with
  | nil => exact .of_eq fun _ _ => rfl
  | @kept v vs _ _ _ _ _ _ ih =>
    have hv : Balanced G body (·.total v.code) fun f => weigh f.total (v.copies Γ) :=
      .value fun x hx => hg.name (hvs x (hx ▸ List.mem_cons_self))
    have hvs := ih (fun x hx => hvs x (List.mem_cons_of_mem _ hx)) hns
    refine (hv.add hvs).of fun f _ => ?_
    simp only [Measure.totalAll_cons, recorded, weigh_append, weigh_under]
    omega
  | @named v vs _ _ _ _ t _ _ ih =>
    obtain ⟨ht, hns⟩ := List.forall_mem_cons.1 hns
    have hv : Balanced G body (·.total v.code) fun f => weigh f.total (v.copies Γ) :=
      .value fun x hx => hg.name (hvs x (hx ▸ List.mem_cons_self))
    have hvs := ih (fun x hx => hvs x (List.mem_cons_of_mem _ hx)) hns
    refine ((hv.add hvs).add (.atom (hg.name ht))).of fun f _ => ?_
    simp only [Measure.bindings_cons, Measure.totalAll_cons, Measure.total_var, recorded,
      weigh_append, weigh_under, List.map_cons, List.sum_cons, Measure.mint, Mint.symbol]
    omega

/-- What is lowered is balanced with its record. -/
theorem Derives.balanced (hg : Generates table body N G) {job : Job} {out : Output}
    {ms : List Mark} {ns : List Mint} (h : Derives table job out ms ns)
    (hjob : job.Within body) (hns : ∀ n ∈ ns, N n.symbol) :
  job.Balances N G body out ms ns
  := by
  induction h with
  | @copied Γ s e _ =>
    intro hs
    refine (Balanced.atom (hg.name hs.success)).of fun f _ => ?_
    simp [Output.total, recorded, Nat.add_comm]
  | @ask Γ s s' f args op handler vs made code ms ns hhandler hmade _ ih =>
    intro hs
    refine ih (fun c hc => hjob.child rfl c (List.mem_cons_of_mem _ hc)) hns hs nofun ?_
    intro hs hvs _
    have hmade := hg.handler hhandler hs.success hs.failure hmade
    have hvs : Balanced G body (·.totalAll (vs.map (·.code))) _ :=
      .values (Γ := Γ) fun x hx => hg.name (hvs x hx)
    refine (hmade.add hvs).of fun f _ => ?_
    simp only [recorded, weigh_ask, List.map_nil, List.sum_nil]
    omega
  | @call Γ s s' f args v vs _ _ _ _ _ _ ih =>
    intro hs
    refine ih (hjob.child rfl) hns hs nofun fun hs hvs _ => ?_
    have hvs : Balanced G body (·.totalAll ((v :: vs).map (·.code))) _ :=
      .values (Γ := Γ) fun x hx => hg.name (hvs x hx)
    refine ((Balanced.atom (hg.name hs.success)).add hvs).of fun f _ => ?_
    simp [recorded]
    omega
  | @cond Γ s s' test yes no c c' code v _ _ _ _ _ _ _ _ _ _ ihyes ihno ih =>
    have hchildren := hjob.child rfl
    rw [Expr.children, List.forall_mem_cons, List.forall_mem_cons, List.forall_mem_singleton]
      at hchildren
    obtain ⟨htest, hyes, hno⟩ := hchildren
    intro hs
    refine ih (List.forall_mem_singleton.2 htest) hns hs nofun fun hs hvs hns => ?_
    obtain ⟨hns₁, hns₂⟩ := List.forall_mem_append.1 hns
    have hv : Balanced G body (·.total v.code) fun f => weigh f.total (v.copies Γ) :=
      .value fun x hx => hg.name (hvs x (hx ▸ List.mem_cons_self))
    refine ((hv.add (ihyes hyes hns₁ hs)).add (ihno hno hns₂ hs)).of fun f _ => ?_
    simp [recorded, Output.total]
    omega
  | @seq Γ s es _ _ _ hn _ ih =>
    intro hs
    refine ih (hjob.child rfl) hns ?_ hs (.of_eq fun _ _ => rfl)
    rintro hnil
    rw [List.append_nil] at hnil
    rw [hnil, needsLowering_seq] at hn
    cases hn
  | bind _ _ ih => exact fun hs => ih (.of_bind hjob) hns hs nofun
  | @loop Γ s bs e inner start _ _ _ _ x err _ _ _ ihbody ihstart =>
    intro hs
    obtain ⟨(hx : N x), hns⟩ := List.forall_mem_cons.1 hns
    obtain ⟨hns₁, hns₂⟩ := List.forall_mem_append.1 hns
    obtain ⟨(herr : N err), hns₂⟩ := List.forall_mem_cons.1 hns₂
    have hnames := hg.loop bs e hjob.partOf
    have hbody := ihbody (liesIn_of_loop hjob) hns₁ ((hs.inLoop hx).binding _)
    have henter : Balanced G body (·.total (.call (.var x) ((bs.map (·.1)).map .var)))
        fun _ => 0 := by
      refine ((Balanced.atom (hg.name hx)).add (.vars fun y hy => hg.name (hnames y hy))).of ?_
      exact fun f _ => by simp
    have hstart := ihstart (.of_loop hjob _) hns₂ (hs.binding _) (by rintro _ ⟨⟩; exact henter)
    have hhead := hg.guardedBy hbody herr hs.failure
    refine (hhead.add hstart).of fun f hf => ?_
    have hquiet := hf.names fun y hy => hjob.contains_of_mem_binders (x := y) hy
    rw [Expr.binders] at hquiet
    simp only [recorded, Output.total, Measure.total_binding, Measure.bindings_cons,
      Measure.bindings_nil, Measure.total_head, hquiet, weigh_head, weigh_append, weigh_under,
      List.map_cons, List.sum_cons, List.map_append, List.sum_append, Measure.mint]
    omega
  | @recur Γ s s' head args vs temps values _ _ ms' _ ns' hhead _ hfixes _ ih =>
    intro hs
    refine ih (hjob.child rfl) hns hs nofun fun hs' hvs hns' => ?_
    have hfixes := hfixes.balanced hg hvs hns'
    have hhead := hg.name (hs.head head hhead)
    refine ((hfixes.add (.atom hg.thunk)).add (.atom hhead)).of fun f _ => ?_
    simp only [recorded, weigh_append, weigh_map_keep, Measure.total_binding,
      Measure.total_reentryCall]
    omega
  | @define Γ s s' x e code v _ _ _ _ ih =>
    intro hs
    refine ih (hjob.child rfl) hns hs nofun fun hs hvs _ => ?_
    have hv : Balanced G body (·.total v.code) fun f => weigh f.total (v.copies Γ) :=
      .value fun x hx => hg.name (hvs x (hx ▸ List.mem_cons_self))
    refine (hv.add (.atom (hg.name hs.success))).of fun f _ => ?_
    simp only [recorded, Measure.total_send, Measure.total_define, List.map_nil, List.sum_nil]
    omega
  | plain _ _ ih => exact fun hs => ih (liesIn_of_protect hjob) hns hs
  | @protect Γ s e c clauses cleanup last first _ _ _ _ _ _ err _ hlast hfirst _ ihlast ihfirst
      ihbody =>
    intro hs
    obtain ⟨hns₁, hns⟩ := List.forall_mem_append.1 hns
    obtain ⟨hns₂, hns⟩ := List.forall_mem_append.1 hns
    obtain ⟨hns₃, herr⟩ := List.forall_mem_append.1 hns
    have herr : N err := herr _ List.mem_cons_self
    have hafter : N last.success ∧ N last.failure :=
      hlast.landing_cleanup (fun y hy => hns₁ _ (hlast.cleanup_names y hy)) hs.success hs.failure
    obtain ⟨hsuccess, hfailure⟩ : N first.success ∧ N first.failure :=
      hfirst.landing_clauses (fun y hy => hns₂ _ (hfirst.clauses_names y hy)) hafter
    have hlast := ihlast (cleanup_liesIn_of_protect hjob) hns₁ hs
    have hfirst := ihfirst (clausesWithin_of_protect hjob) hns₂ (hs.binding _) hafter.1 hafter.2
    have hbody := ihbody (liesIn_of_protect hjob) hns₃
      (((hs.binding _).binding _).continuingWith hsuccess hfailure)
    have hguard := hg.guardedBy hbody herr hfailure
    refine ((hlast.add hfirst).add hguard).of fun f _ => ?_
    simp only [recorded, Output.total, Measure.total_binding, Measure.bindings_append,
      weigh_append, weigh_under, List.map_append, List.sum_append, List.map_cons, List.map_nil,
      List.sum_cons, List.sum_nil, Measure.mint]
    omega
  | @receive Γ s e c code _ _ _ k x err _ _ ih =>
    intro hs hk r hc
    obtain ⟨(herr : N err), hns⟩ := List.forall_mem_cons.1 hns
    have hcode := ih hjob hns (hs.delivering hk)
    have hcont := hg.continuation x hc herr hs.failure
    refine (hcont.add hcode).of fun f _ => ?_
    simp only [recorded, Output.total, Measure.total_binding, Measure.bindings_cons,
      Measure.bindings_nil, weigh_append, weigh_under, List.map_cons,
      List.sum_cons, Measure.mint]
    omega
  | finish =>
    intro hs hvs hfinish
    apply hfinish hs _ hns
    intro x hx
    rcases List.mem_append.1 hx with hx | hx
    · exact hvs x hx
    · obtain ⟨_, -, heq⟩ := List.mem_map.1 hx
      cases heq
  | suspended v k _ _ ihrest ih =>
    intro hs hvs hfinish
    obtain ⟨he, hes⟩ := List.forall_mem_cons.1 hjob
    obtain ⟨(hv : N v), hns⟩ := List.forall_mem_cons.1 hns
    obtain ⟨hns₁, hns₂⟩ := List.forall_mem_append.1 hns
    obtain ⟨(hk : N k), hns₂⟩ := List.forall_mem_cons.1 hns₂
    have hvs := Operand.forall_mem_concat hvs (v := .minted v) (by rintro x ⟨⟩; exact hv)
    have hrest := ihrest hes hns₁ (hs.binding _) hvs hfinish
    refine (ih he hns₂ hs hk _ hrest).of fun f _ => ?_
    simp only [recorded, List.map_cons, List.map_append, List.sum_cons, List.sum_append,
      Measure.mint]
    omega
  | kept _ _ _ _ ih =>
    intro hs hvs hfinish
    have hrest := ih (List.forall_mem_cons.1 hjob).2 hns hs
      (Operand.forall_mem_concat hvs fun _ => Operand.noConfusion) hfinish
    refine hrest.of fun f _ => ?_
    simp only [recorded, weigh_keep]
    omega
  | named t _ _ _ _ ih =>
    intro hs hvs hfinish
    obtain ⟨(ht : N t), hns⟩ := List.forall_mem_cons.1 hns
    have hvs := Operand.forall_mem_concat hvs (v := .minted t) (by rintro x ⟨⟩; exact ht)
    have hrest := ih (List.forall_mem_cons.1 hjob).2 hns (hs.binding _) hvs hfinish
    refine hrest.of fun f _ => ?_
    simp only [recorded, Output.total, Measure.total_binding, Measure.bindings_cons,
      Measure.bindings_nil, weigh_copied, weigh_under, List.map_cons, List.sum_cons,
      Measure.mint]
    omega
  | sequence =>
    intro hne hs hmade
    refine (hmade.add (.atom (hg.name hs.success))).of fun f _ => ?_
    simp only [recorded, Output.total, Measure.total_send, Measure.total_block f hne,
      Measure.totalAll_append, weigh_map_copied, List.map_nil, List.sum_nil]
    change _ + (f.totalAll _ + _) + _ = f.totalAll _ + 0 + _
    omega
  | sequenceLast _ _ _ ih =>
    intro _ hs _
    refine (ih ((List.forall_mem_append.1 hjob).2 _ List.mem_cons_self) hns hs).of fun f _ => ?_
    simp only [recorded, Output.total, Measure.total_block f (List.concat_ne_nil _ _),
      Measure.totalAll_append, Measure.totalAll_cons, Measure.totalAll_nil, weigh_append,
      weigh_map_copied]
    change f.totalAll _ + _ + _ = f.totalAll _ + _ + _ + _
    omega
  | sequenceMore k ignored _ hne _ _ ihafter ih =>
    intro _ hs hmade
    obtain ⟨he, hes⟩ := List.forall_mem_cons.1 (List.forall_mem_append.1 hjob).2
    obtain ⟨(hk : N k), hns⟩ := List.forall_mem_cons.1 hns
    obtain ⟨(hignored : N ignored), hns⟩ := List.forall_mem_cons.1 hns
    obtain ⟨hns₁, hns₂⟩ := List.forall_mem_append.1 hns
    have hafter := ihafter hes hns₁ hne (hs.binding _) hmade
    refine (ih he hns₂ hs hk _ hafter).of fun f _ => ?_
    simp only [recorded, Output.total, Measure.total_block f (List.concat_ne_nil _ _),
      Measure.totalAll_append, Measure.totalAll_cons, Measure.totalAll_nil, weigh_append,
      weigh_map_copied, List.map_cons, List.map_append, List.sum_cons, List.sum_append,
      Measure.mint]
    change f.totalAll _ + _ + _ = f.totalAll _ + _ + _ + _
    omega
  | bindingsValue _ _ ih =>
    intro hs _
    refine (ih hjob.tail hns (hs.binding _)).of fun f hf => ?_
    simp only [recorded, Output.total, Measure.total_binding, hf.bindings hjob.names,
      weigh_append, weigh_under, weigh_copiedBindings]
    omega
  | bindingsCode =>
    intro hs htail
    refine (htail _ rfl).of fun f hf => ?_
    simp only [recorded, Output.total, Measure.total_binding, hf.bindings hjob.names,
      weigh_copiedBindings, List.map_nil, List.sum_nil]
    omega
  | bindingsMore k _ _ _ ihafter ih =>
    intro hs htail
    obtain ⟨hns₁, hns₂⟩ := List.forall_mem_append.1 hns
    obtain ⟨(hk : N k), hns₂⟩ := List.forall_mem_cons.1 hns₂
    have hnames := hjob.names
    rw [List.map_append, List.forall_mem_append] at hnames
    have hafter := ihafter hjob.rest hns₁ ((hs.binding _).binding _) htail
    refine (ih hjob.value hns₂ (hs.binding _) hk _ hafter).of fun f hf => ?_
    simp only [recorded, Output.total, Measure.total_binding, hf.bindings hnames.1,
      hf _ (hnames.2 _ List.mem_cons_self), weigh_append, weigh_under, weigh_copiedBindings,
      List.map_cons, List.map_append, List.sum_cons, List.sum_append, Measure.mint]
    omega
  | noCleanup | noBodies => exact fun _ => .of_eq fun _ _ => rfl
  | noClauses => exact fun _ _ _ => .of_eq fun _ _ => rfl
  | cleanup k v g h err g' _ _ ihvalue iherror =>
    intro hs
    have he : ∀ d ∈ [_], Expr.LiesIn _ d body := List.forall_mem_singleton.2 (hjob _ rfl)
    obtain ⟨(hk : N k), hns⟩ := List.forall_mem_cons.1 hns
    obtain ⟨(hv : N v), hns⟩ := List.forall_mem_cons.1 hns
    obtain ⟨hns₁, hns⟩ := List.forall_mem_append.1 hns
    obtain ⟨(hg₁ : N g), hns⟩ := List.forall_mem_cons.1 hns
    obtain ⟨(hh : N h), hns⟩ := List.forall_mem_cons.1 hns
    obtain ⟨(herr : N err), hns⟩ := List.forall_mem_cons.1 hns
    obtain ⟨hns₂, hg₂⟩ := List.forall_mem_append.1 hns
    have hg₂ : N g' := hg₂ _ List.mem_cons_self
    have hmade : Balanced G body (·.totalAll [.var v]) fun _ => 0 :=
      (Balanced.atom (hg.name hv)).of fun f _ => by simp
    have hmade' : Balanced G body (·.totalAll [raising (.var err)]) fun _ => 0 :=
      ((Balanced.atom hg.throw).add (.atom (hg.name herr))).of fun f _ => by simp
    have hvalue := ihvalue he hns₁ (List.cons_ne_nil _ _) (hs.binding _) hmade
    have herror := iherror he hns₂ (List.cons_ne_nil _ _) (hs.binding _) hmade'
    have hconts := (hg.continuation v hvalue hg₁ hs.failure).add
      (hg.continuation err herror hg₂ hs.failure)
    refine hconts.of fun f _ => ?_
    simp only [recorded, Output.total, Measure.bindings_cons, Measure.bindings_nil, weigh_append,
      weigh_under, List.map_append, List.sum_append, List.map_cons, List.map_nil, List.sum_cons,
      List.sum_nil, Measure.mint]
    omega
  | clauses h err g _ _ ih =>
    intro hs hsuccess hfailure
    obtain ⟨(hh : N h), hns⟩ := List.forall_mem_cons.1 hns
    obtain ⟨(herr : N err), hns⟩ := List.forall_mem_cons.1 hns
    obtain ⟨hns, hg₁⟩ := List.forall_mem_append.1 hns
    have hg₁ : N g := hg₁ _ List.mem_cons_self
    have hbodies := ih hjob hns (hs.continuingWith hsuccess hfailure)
    refine (hg.continuation err (hg.selection hbodies herr) hg₁ hfailure).of fun f _ => ?_
    simp only [recorded, Output.total, Measure.bindings_cons, Measure.bindings_nil, weigh_under,
      List.map_append, List.sum_append, List.map_cons, List.map_nil, List.sum_cons, List.sum_nil,
      Measure.mint]
    omega
  | bodies _ _ ihbody ihrest =>
    intro hs
    obtain ⟨⟨hx, he⟩, hclauses⟩ := List.forall_mem_cons.1 hjob
    obtain ⟨hns₁, hns₂⟩ := List.forall_mem_append.1 hns
    have hbody := ihbody he hns₁ (hs.binding _)
    refine (hbody.add (ihrest hclauses hns₂ hs)).of fun f hf => ?_
    simp only [recorded, Output.total, Measure.clauses_cons, Measure.total_function, hf _ hx,
      weigh_append, weigh_under, List.map_append, List.sum_append, List.map_nil, List.sum_nil]
    omega

/-- The code of a whole body is balanced with the record of its derivation. -/
theorem Compiles.balanced (hg : Generates table body N G) {code : Expr} {ms : List Mark}
    {ns : List Mint} (h : Compiles table body code ms ns) (hns : ∀ n ∈ ns, N n.symbol) :
  Balanced G body (·.total code) (recorded ms ns)
  := by
  cases h with
  | mk success failure h =>
    obtain ⟨(hsuccess : N success), hns⟩ := List.forall_mem_cons.1 hns
    obtain ⟨(hfailure : N failure), hns⟩ := List.forall_mem_cons.1 hns
    refine (h.balanced hg (.refl body) hns ⟨hsuccess, hfailure, nofun⟩).of fun f _ => ?_
    simp only [recorded, Output.total, Measure.total_function, weigh_under, List.map_cons,
      List.map_nil, List.sum_cons, List.sum_nil, Measure.mint]
    omega

end

end Skein.Coroutine
