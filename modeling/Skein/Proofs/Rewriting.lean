import Skein.Proofs.Lowering
import Skein.Proofs.Parts
import Skein.Proofs.Reentry.Lowering

/-!
# Breakpoints are rewritten

In a coroutine body whose breakpoints are only called, and have passed the check of its
function literals, every breakpoint becomes code of its handler.  The code that the body is
lowered to mentions no breakpoint, and the loops that are left in it are loops of the body that
reach none.  So the coroutine can be part of another coroutine body, where the check of function
literals finds what it would find without it.
-/

namespace Skein

/-- Breakpoints are only called: outside of function literals a tree refers to them only as
operators of calls, and binds none by a loop. -/
inductive Expr.OnlyCalled (p : Symbol → Bool) : Expr → Prop where
  | call {x : Symbol} {args : List Expr} (hargs : ∀ a ∈ args, OnlyCalled p a) :
    OnlyCalled p (.call (.var x) args)
  | node {e : Expr} (hvar : ∀ x, e = .var x → p x = false)
    (hloop : ∀ bs body, e = .loop bs body → ∀ b ∈ bs, p b.1 = false)
    (hchildren : ∀ c ∈ e.children, OnlyCalled p c) : OnlyCalled p e

namespace Expr.OnlyCalled

variable {p : Symbol → Bool} {e f : Expr} {args : List Expr}

/-- A reference to what is no breakpoint. -/
theorem var {x : Symbol} (h : p x = false) :
  OnlyCalled p (.var x)
  := by
  refine .node ?_ nofun fun _ h => absurd h List.not_mem_nil
  rintro _ ⟨⟩
  exact h

/-- The operator of a call, which may be a breakpoint, and its arguments. -/
theorem of_call (h : OnlyCalled p (.call f args)) :
  ((∃ x, f = .var x) ∨ OnlyCalled p f) ∧ ∀ a ∈ args, OnlyCalled p a
  := by
  cases h with
  | call hargs => exact ⟨.inl ⟨_, rfl⟩, hargs⟩
  | node _ _ hchildren =>
    obtain ⟨hf, hargs⟩ := List.forall_mem_cons.1 hchildren
    exact ⟨.inr hf, hargs⟩

/-- The children of a tree that is no call. -/
theorem of_mem_children {c : Expr} (h : OnlyCalled p e) (hcall : ∀ f args, e ≠ .call f args)
    (hc : c ∈ e.children) :
  OnlyCalled p c
  := by
  cases h with
  | call => exact absurd rfl (hcall _ _)
  | node _ _ hchildren => exact hchildren c hc

/-- A sequence. -/
theorem block {es : List Expr} (h : ∀ e ∈ es, OnlyCalled p e) :
  OnlyCalled p (.block es)
  := block_of (.node nofun nofun fun _ h => absurd h List.not_mem_nil) (.node nofun nofun) h

/-- A tree that reaches no breakpoint, and has none in its function literals, mentions none. -/
theorem not_mentions (h : OnlyCalled p e) (hreaches : e.reaches p = false)
    (hnone : e.violation? p = none) {x : Symbol} (hx : e.Mentions x) :
  p x = false
  := by
  induction h with
  | @call y args hargs ih =>
    obtain ⟨hcalled, hreaches⟩ := reaches_eq_false_iff.1 hreaches
    have hchildren := ((firstMention?_eq_none_iff rfl).1 hnone).2
    cases hx with | child hc hx
    rcases List.mem_cons.1 hc with rfl | hc
    · cases hx with
      | var =>
        rw [calledBreakpoint?, ite_eq_right_iff] at hcalled
        exact Bool.eq_false_iff.2 fun h => Option.some_ne_none _ (hcalled h)
      | child hc => exact absurd hc List.not_mem_nil
    · have hc' := List.mem_cons_of_mem (Expr.var y) hc
      exact ih _ hc (hreaches _ hc') (hchildren _ hc') hx
  | @node e hvar _ _ ih =>
    obtain ⟨-, hreaches⟩ := reaches_eq_false_iff.1 hreaches
    cases hx with
    | var => exact hvar x rfl
    | body hx =>
      rw [violation?, firstMention?_lambda] at hnone
      exact firstMention?_inside_eq_none_iff.1 hnone x hx
    | child hc hx =>
      have hbody := functionBody?_eq_none_of_mem_children hc
      exact ih _ hc (hreaches _ hc) (((firstMention?_eq_none_iff hbody).1 hnone).2 _ hc) hx

end Expr.OnlyCalled

namespace Coroutine

open Compiling

/-! ### Trees to be lowered, and their code -/

/-- A tree that lowering a coroutine body comes to: breakpoints are only called, function
literals hold none, and its loops are loops of the body. -/
structure Checked (p : Symbol → Bool) (body e : Expr) : Prop where
  onlyCalled : e.OnlyCalled p
  violation : e.violation? p = none
  loops (l : Expr) (hl : l.PartOf e) (hloop : l.isLoop = true) : l.PartOf body

/-- Code without breakpoints: it mentions none, and its loops are loops of the coroutine body
that reach none. -/
structure Rewritten (p : Symbol → Bool) (body code : Expr) : Prop where
  mentions (x : Symbol) (hx : code.Mentions x) : p x = false
  loops (l : Expr) (hl : l.PartOf code) (hloop : l.isLoop = true) :
    l.PartOf body ∧ l.reaches p = false

variable {p : Symbol → Bool} {body e : Expr} {es : List Expr} {x : Symbol}

/-- A part of a tree that is no loop is a loop when it is one in a piece of the tree. -/
theorem loop_of_pieces {P : Expr → Prop} (he : e.isLoop = false)
    (h : ∀ d ∈ e.pieces, ∀ l, l.PartOf d → l.isLoop = true → P l) :
  ∀ l, l.PartOf e → l.isLoop = true → P l
  := by
  intro l hl hloop
  rcases Expr.partOf_iff.1 hl with rfl | ⟨d, hd, hl⟩
  · rw [he] at hloop
    cases hloop
  · exact h d hd l hl hloop

/-- The pieces of a tree that is no function literal are its children. -/
theorem pieces_of_functionBody? (h : e.functionBody? = none) :
  e.pieces = e.children
  := by
  cases e with
  | lambda => cases h
  | _ => rfl

namespace Checked

/-- The whole body. -/
theorem whole (h : body.OnlyCalled p) (hnone : body.violation? p = none) :
  Checked p body body
  := ⟨h, hnone, fun _ hl _ => hl⟩

/-- A part of a tree is checked when breakpoints are only called in it and it is no part of a
function literal. -/
theorem child {c : Expr} (h : Checked p body e) (hc : c ∈ e.children) (hcalled : c.OnlyCalled p) :
  Checked p body c
  := by
  refine ⟨hcalled, ?_, ?_⟩
  · have hbody := Expr.functionBody?_eq_none_of_mem_children hc
    exact ((Expr.firstMention?_eq_none_iff hbody).1 h.violation).2 c hc
  · exact fun l hl => h.loops l (hl.trans (Expr.partOf_of_mem_children hc))

/-- A tree that is neither a function literal nor a loop. -/
theorem of_children (hcalled : e.OnlyCalled p) (hbody : e.functionBody? = none)
    (hloop : e.isLoop = false) (h : ∀ c ∈ e.children, Checked p body c) :
  Checked p body e
  := by
  refine ⟨hcalled, (Expr.firstMention?_eq_none_iff hbody).2 ⟨nofun, ?_⟩, loop_of_pieces hloop ?_⟩
  · exact fun c hc => (h c hc).violation
  · rw [pieces_of_functionBody? hbody]
    exact fun c hc => (h c hc).loops

/-- A reference to what is no breakpoint. -/
theorem var (hx : p x = false) :
  Checked p body (.var x)
  := of_children (.var hx) rfl rfl fun _ h => absurd h List.not_mem_nil

/-- A sequence. -/
theorem block (h : ∀ e ∈ es, Checked p body e) :
  Checked p body (.block es)
  := by
  apply Expr.block_of _ _ h
  · exact of_children (.node nofun nofun fun _ h => absurd h List.not_mem_nil) rfl rfl
      fun _ h => absurd h List.not_mem_nil
  · exact fun h => of_children (.node nofun nofun fun c hc => (h c hc).onlyCalled) rfl rfl h

/-- A tree that reaches no breakpoint is code as it is. -/
theorem rewritten (h : Checked p body e) (hreaches : e.reaches p = false) :
  Rewritten p body e
  := by
  have hmentions := fun x hx => h.onlyCalled.not_mentions hreaches h.violation (x := x) hx
  refine ⟨hmentions, fun l hl hloop => ⟨h.loops l hl hloop, Bool.eq_false_iff.2 fun hr => ?_⟩⟩
  obtain ⟨x, hx, hl'⟩ := Expr.exists_mentions_of_reaches hr
  rw [hmentions x (hl.mentions hl')] at hx
  cases hx

end Checked

namespace Rewritten

/-- Code that is neither a reference nor a loop is put together of code. -/
theorem of_pieces (hvar : ∀ x, e ≠ .var x) (hloop : e.isLoop = false)
    (h : ∀ d ∈ e.pieces, Rewritten p body d) :
  Rewritten p body e
  := by
  refine ⟨fun x hx => ?_, loop_of_pieces hloop fun d hd => (h d hd).loops⟩
  rcases Expr.partOf_iff.1 (Expr.mentions_iff_partOf.1 hx) with heq | ⟨d, hd, hx⟩
  · exact absurd heq.symm (hvar x)
  · exact (h d hd).mentions x (Expr.mentions_iff_partOf.2 hx)

/-- A reference to what is no breakpoint. -/
theorem var (hx : p x = false) :
  Rewritten p body (.var x)
  := by
  refine ⟨fun y hy => ?_, loop_of_pieces rfl fun d hd => absurd hd List.not_mem_nil⟩
  cases hy with
  | var => exact hx
  | child hc => exact absurd hc List.not_mem_nil

/-- The call of a function that the tree holds. -/
theorem callBuiltin {b : Builtin} {args : List Expr} (h : ∀ a ∈ args, Rewritten p body a) :
  Rewritten p body (.call (.builtin b) args)
  := by
  refine of_pieces nofun rfl (List.forall_mem_cons.2 ⟨?_, h⟩)
  exact of_pieces nofun rfl fun _ h => absurd h List.not_mem_nil

end Rewritten

/-! ### The breakpoint `await` -/

/-- The only breakpoint of the default table. -/
theorem has_default_iff :
  Table.default.has x = true ↔ x = "await"
  := by
  rw [Table.has, Table.default, List.any_cons, List.any_nil, Bool.or_false, beq_iff_eq, eq_comm]

/-- The handlers of the default table. -/
theorem handler_of_calledHandler? {f : Expr} {op : Symbol} {handler : Handler}
    (h : calledHandler? Table.default f = some (op, handler)) :
  handler = await
  := by
  unfold calledHandler? at h
  split at h
  · obtain ⟨handler', hfind, hpair⟩ := Option.map_eq_some_iff.1 h
    cases hpair
    obtain ⟨entry, hentry, rfl⟩ := Option.map_eq_some_iff.1 hfind
    obtain rfl := List.mem_singleton.1 (List.mem_of_find?_eq_some hentry)
    rfl
  · cases h

/-- The code that an awaited call becomes has no breakpoints that its parts have not. -/
theorem await_rewritten {site : Site} {args : List Expr} {code : Expr}
    (hsuccess : p site.success = false) (hfailure : p site.failure = false)
    (hargs : ∀ a ∈ args, Rewritten p body a) (h : await site args = .ok code) :
  Rewritten p body code
  := by
  unfold await at h
  split at h
  · cases h
  · rename_i op rest
    cases h
    obtain ⟨hop, hrest⟩ := List.forall_mem_cons.1 hargs
    have hcont : ∀ (b : Builtin) {x : Symbol}, p x = false →
        Rewritten p body (.call (.builtin b) [.var x]) := fun b _ hx =>
      .callBuiltin (List.forall_mem_singleton.2 (.var hx))
    refine .of_pieces (by rintro _ ⟨⟩) rfl
      (List.forall_mem_cons.2 ⟨hop, List.forall_mem_append.2 ⟨hrest, ?_⟩⟩)
    exact List.forall_mem_cons.2
      ⟨hcont .awaitResume hsuccess, List.forall_mem_singleton.2 (hcont .awaitReject hfailure)⟩

/-- A minted name is no breakpoint, since it is numbered. -/
theorem has_default_spell (stem : String) (n : Nat) :
  Table.default.has (SymbolTable.spell stem n) = false
  := by
  refine Bool.eq_false_iff.2 fun h => ?_
  have hchars := congrArg String.toList (has_default_iff.1 h)
  have hmem : '#' ∈ (SymbolTable.spell stem n).toList := by
    simp [SymbolTable.spell, String.toList_append]
  rw [hchars] at hmem
  revert hmem
  decide

/-- Lowering rewrites the breakpoint of the default table. -/
theorem carries_rewritten (body : Expr) :
  Carries Table.default (fun x => Table.default.has x = false)
    (Checked Table.default.has body) (Rewritten Table.default.has body)
  where
  fresh _ n := has_default_spell _ n
  copied := Checked.rewritten
  call := by
    intro f args h
    obtain ⟨hf, hargs⟩ := h.onlyCalled.of_call
    refine ⟨?_, fun a ha => h.child (List.mem_cons_of_mem _ ha) (hargs a ha)⟩
    rcases hf with ⟨x, rfl⟩ | hf
    · cases hx : Table.default.has x with
      | true =>
        obtain rfl := has_default_iff.1 hx
        exact .inl rfl
      | false => exact .inr (.inl (.var hx))
    · exact .inr (.inl (h.child List.mem_cons_self hf))
  children h hcall hc := h.child hc (h.onlyCalled.of_mem_children hcall hc)
  loopNames h b hb := by
    cases h.onlyCalled with
    | node _ hloop => exact hloop _ _ rfl b hb
  name := .var
  raise hx := by
    have hchildren : ∀ c ∈ (raising (.var _)).children, Checked Table.default.has body c :=
      List.forall_mem_cons.2 ⟨.of_children (.node nofun nofun fun _ h => absurd h List.not_mem_nil)
        rfl rfl fun _ h => absurd h List.not_mem_nil, List.forall_mem_singleton.2 (.var hx)⟩
    exact .of_children (.node nofun nofun fun c hc => (hchildren c hc).onlyCalled) rfl rfl hchildren
  block := .block
  handler hhandler hsuccess hfailure hargs hcode := by
    obtain rfl := handler_of_calledHandler? hhandler
    exact await_rewritten hsuccess hfailure hargs hcode
  var := .var
  lambda hbody := .of_pieces nofun rfl (List.forall_mem_singleton.2 hbody)
  callBuiltin := .callBuiltin
  node hvar _ hbody hloop h := by
    apply Rewritten.of_pieces hvar hloop
    rw [pieces_of_functionBody? hbody]
    exact h

end Coroutine

/-! ### Complete rewriting -/

namespace Compile

open Compiling
open Coroutine (Table Rewritten Checked)

/-- Breakpoints are rewritten completely.  When the body of an `async` coroutine passes the check
of its function literals, and `await` is only called in it, then the code that the body becomes
mentions no breakpoint.  Every loop that is left in the code is a loop of the body that reaches
no breakpoint, and every re-entry that is left in the code stands in the tail of such a loop, with
no function literal in between.  And wherever the code is put into another body, the check of that
body finds what it finds without the code. -/
theorem coroutine_is_rewritten {o : Options} {ds : List Datum} {body code : Expr}
    {t t' t'' : SymbolTable} (hchecks : o.deferScopeChecks = false)
    (hbody : Compile.body o .top ds t = .ok body t')
    (hcalled : body.OnlyCalled Table.default.has)
    (hcode : coroutineOf o Table.default body t' = .ok code t'') :
  (∀ x, code.Mentions x → Table.default.has x = false) ∧
    (∀ l : Expr, l.PartOf code → l.isLoop = true →
      l.PartOf body ∧ l.reaches Table.default.has = false) ∧
    (o.flavors.Orderly → code.Orderly none) ∧
    ∀ outer y, Table.default.has y = false →
      (Expr.fill y code outer).violation? Table.default.has =
        (outer.violation? Table.default.has).map (Expr.Violation.fill y code)
  := by
  unfold coroutineOf at hcode
  rw [hchecks, if_neg Bool.false_ne_true] at hcode
  cases hnone : body.violation? Table.default.has with
  | some v =>
    rw [hnone] at hcode
    exact absurd hcode throw_ne_ok
  | none =>
    rw [hnone] at hcode
    obtain ⟨hmentions, hloops⟩ := (Coroutine.carries_rewritten body).compile
      (Checked.whole hcalled hnone) t' code t'' hcode
    refine ⟨hmentions, hloops, fun ho => ?_, fun outer y hy => ?_⟩
    · have htable : Table.default.Orderly := List.forall_mem_singleton.2 Coroutine.await_orderly
      have horderly := body_kind (orderly_kind ho) .top (fun _ _ => trivial) t body t' hbody
      exact (Coroutine.compile_orderly htable horderly none).makes t' code t'' hcode
    · exact Expr.violation?_fill hy hmentions outer

/-- Await in a loop, until a function is returned. -/
def awaitingForms : List Datum :=
  [.list [.symbol "loop", .vector [.symbol "i", .scalar (.int 0)],
    .list [.symbol "if", .list [.symbol "await", .symbol "op", .symbol "i"],
      .list [.symbol "recur", .list [.symbol "inc", .symbol "i"]],
      .list [.symbol "fn", .vector [.symbol "x"], .symbol "x"]]]]

/-- The tree of the forms. -/
def awaiting : Expr :=
  .loop [("i", .literal (.scalar (.int 0)))]
    (.cond (.call (.var "await") [.var "op", .var "i"])
      (.recur [.call (.var "inc") [.var "i"]])
      (.lambda none ["x"] (.var "x")))

/-- In the loop, `await` is only called. -/
theorem awaiting_onlyCalled :
  awaiting.OnlyCalled Table.default.has
  := by
  have hvar : ∀ x, Table.default.has x = false → (Expr.var x).OnlyCalled Table.default.has :=
    fun _ hx => .var hx
  have hawait : (Expr.call (.var "await") [.var "op", .var "i"]).OnlyCalled Table.default.has := by
    apply Expr.OnlyCalled.call
    exact List.forall_mem_cons.2 ⟨hvar _ rfl, List.forall_mem_singleton.2 (hvar _ rfl)⟩
  have hrecur : (Expr.recur [.call (.var "inc") [.var "i"]]).OnlyCalled Table.default.has := by
    refine .node nofun nofun (List.forall_mem_singleton.2 (.call ?_))
    exact List.forall_mem_singleton.2 (hvar _ rfl)
  have hlambda : (Expr.lambda none ["x"] (.var "x")).OnlyCalled Table.default.has :=
    .node nofun nofun fun _ h => absurd h List.not_mem_nil
  refine .node nofun ?_ ?_
  · rintro _ _ ⟨⟩
    exact List.forall_mem_singleton.2 rfl
  · refine List.forall_mem_cons.2 ⟨?_, List.forall_mem_singleton.2 (.node nofun nofun ?_)⟩
    · exact .node nofun nofun fun _ h => absurd h List.not_mem_nil
    · exact List.forall_mem_cons.2 ⟨hawait, List.forall_mem_cons.2
        ⟨hrecur, List.forall_mem_singleton.2 hlambda⟩⟩

/-- The code of the loop mentions no breakpoint and re-enters no loop. -/
theorem awaiting_is_rewritten :
  ∃ code t t' t'',
    Compile.body ⟨.default, false⟩ .top awaitingForms t = .ok awaiting t' ∧
    coroutineOf ⟨.default, false⟩ Table.default awaiting t' = .ok code t'' ∧
    (∀ x, code.Mentions x → Table.default.has x = false) ∧
    (∀ l : Expr, l.PartOf code → l.isLoop = true →
      l.PartOf awaiting ∧ l.reaches Table.default.has = false) ∧
    code.Orderly none
  := by
  have hbody : Compile.body ⟨.default, false⟩ .top awaitingForms .empty =
      .ok awaiting .empty := by
    unfold awaitingForms Datum.symbol
    cbv
  have hcompiles : ((coroutineOf ⟨.default, false⟩ Table.default awaiting).run' .empty).isSome =
      true := by decide +kernel
  cases hcode : coroutineOf ⟨.default, false⟩ Table.default awaiting .empty with
  | ok code t'' =>
    obtain ⟨hmentions, hloops, horderly, -⟩ :=
      coroutine_is_rewritten rfl hbody awaiting_onlyCalled hcode
    exact ⟨code, _, _, t'', hbody, hcode, hmentions, hloops,
      horderly Coroutine.Flavors.orderly_default⟩
  | error e t'' =>
    unfold EStateM.run' EStateM.run at hcompiles
    rw [hcode] at hcompiles
    cases hcompiles

end Compile

end Skein
