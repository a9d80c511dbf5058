import Skein.Interpreter
import Skein.Proofs.FreshNames

/-!
# What forms are compiled to

A kind of trees is a property of trees that depends on whether, and with how many values, a
loop may be re-entered in the tail of the tree.  Forms are compiled to trees of a kind when
the trees that are put together of trees of the kind are of the kind, as are the functions
that coroutine bodies become.

Not all forms need be considered.  A dialect says which data are forms, and which names and
literals they are made of.  The trees that they are compiled to are then put together of such
names and literals, and of those that compiling itself adds.
-/

namespace Skein

/-- The trees of a sequence: the last one stands where the sequence stands. -/
structure Expr.SeqOf (P : Option Nat → Expr → Prop) (arity : Option Nat) (es : List Expr) :
    Prop where
  before : ∀ e ∈ es.dropLast, P none e
  last : ∀ e ∈ es.getLast?, P arity e

namespace Expr.SeqOf

variable {P : Option Nat → Expr → Prop} {arity : Option Nat} {e : Expr} {es : List Expr}

/-- No trees. -/
theorem nil :
  SeqOf P arity []
  := ⟨fun _ h => absurd h List.not_mem_nil, nofun⟩

/-- Some trees before the last one. -/
theorem concat (hes : ∀ e ∈ es, P none e) (he : P arity e) :
  SeqOf P arity (es ++ [e])
  := by
  constructor
  · rw [List.dropLast_concat]
    exact hes
  · rw [List.getLast?_concat]
    rintro _ ⟨⟩
    exact he

/-- One tree. -/
theorem singleton (he : P arity e) :
  SeqOf P arity [e]
  := concat (fun _ h => absurd h List.not_mem_nil) he

/-- A tree before the first one. -/
theorem cons (h : SeqOf P arity es) (hne : es ≠ []) (he : P none e) :
  SeqOf P arity (e :: es)
  := by
  obtain ⟨d, ds, rfl⟩ := List.exists_cons_of_ne_nil hne
  exact ⟨List.forall_mem_cons.2 ⟨he, h.before⟩, h.last⟩

/-- The first tree, which is not the last one, and the rest. -/
theorem uncons {d : Expr} (h : SeqOf P arity (e :: d :: es)) :
  P none e ∧ SeqOf P arity (d :: es)
  := by
  obtain ⟨he, hbefore⟩ := List.forall_mem_cons.1 h.before
  exact ⟨he, hbefore, h.last⟩

/-- Where all places are alike, all trees are alike. -/
theorem forall_mem {Q : Expr → Prop} (h : SeqOf (fun _ => Q) arity es) :
  ∀ e ∈ es, Q e
  := by
  rcases List.eq_nil_or_concat' es with rfl | ⟨before, last, rfl⟩
  · exact fun _ h => absurd h List.not_mem_nil
  · obtain ⟨hbefore, hlast⟩ := h
    rw [List.dropLast_concat] at hbefore
    exact List.forall_mem_append.2
      ⟨hbefore, List.forall_mem_singleton.2 (hlast last List.getLast?_concat)⟩

end Expr.SeqOf

/-! ### Compiling -/

namespace Compiling

variable {α β : Type} {post : α → Prop} {post' : β → Prop}

/-- Whatever a compilation gives has a property. -/
def Makes (post : α → Prop) (act : Compiling α) : Prop := ∀ t a t', act t = .ok a t' → post a

/-- A step without effects makes its value. -/
theorem Makes.pure {a : α} (h : post a) :
  Makes post (Pure.pure a)
  := by
  intro t b t' hb
  obtain ⟨rfl, -⟩ := pure_eq_ok_iff.1 hb
  exact h

/-- A failure makes nothing. -/
theorem Makes.throw (e : CompileError) :
  Makes post (MonadExcept.throw e)
  := fun _ _ _ h => absurd h throw_ne_ok

/-- Nothing need be known of what a compilation gives. -/
theorem Makes.any (act : Compiling α) :
  Makes (fun _ => True) act
  := fun _ _ _ _ => trivial

/-- What needs no compiling. -/
theorem Makes.ofExcept {r : Except CompileError α} (h : ∀ a, r = .ok a → post a) :
  Makes post (Compiling.ofExcept r)
  := by
  intro t a t' ha
  exact h a (ofExcept_eq_ok_iff.1 ha).1

/-- One step of a compilation after another. -/
theorem Makes.bind {act : Compiling α} {k : α → Compiling β} (h : Makes post act)
    (hk : ∀ a, post a → Makes post' (k a)) :
  Makes post' (act >>= k)
  := by
  intro t b t'' hb
  obtain ⟨a, t', ha, hb⟩ := bind_eq_ok_iff.1 hb
  exact hk a (h t a t' ha) t' b t'' hb

/-- Whatever a compilation gives has a property, where some names are numbered, and these names stay
numbered. -/
def Keeps (held : Symbol → Prop) (post : α → Prop) (act : Compiling α) : Prop :=
  ∀ t a t', (∀ x, held x → x ∈ t.names) → act t = .ok a t' →
    (∀ x, held x → x ∈ t'.names) ∧ post a

namespace Keeps

variable {held : Symbol → Prop}

/-- A compilation that only adds names keeps those that are numbered. -/
theorem of_makes {act : Compiling α} (h : Makes post act) (hgrows : Grows act) :
  Keeps held post act
  := fun t a t' hheld ha => ⟨fun x hx => hgrows t a t' ha x (hheld x hx), h t a t' ha⟩

/-- A step without effects. -/
theorem pure {a : α} (h : post a) :
  Keeps held post (Pure.pure a)
  := .of_makes (.pure h) (grows_pure a)

/-- A failure. -/
theorem throw (e : CompileError) :
  Keeps held post (MonadExcept.throw e)
  := .of_makes (.throw e) (grows_throw e)

/-- What needs no compiling. -/
theorem ofExcept {r : Except CompileError α} (h : ∀ a, r = .ok a → post a) :
  Keeps held post (Compiling.ofExcept r)
  := .of_makes (.ofExcept h) (grows_ofExcept r)

/-- One step of a compilation after another. -/
theorem bind {act : Compiling α} {k : α → Compiling β} (h : Keeps held post act)
    (hk : ∀ a, post a → Keeps held post' (k a)) :
  Keeps held post' (act >>= k)
  := by
  intro t b t'' hheld hb
  obtain ⟨a, t', ha, hb⟩ := bind_eq_ok_iff.1 hb
  obtain ⟨hheld, ha⟩ := h t a t' hheld ha
  exact hk a ha t' b t'' hheld hb

/-- Numbering a name. -/
theorem intern (name : Symbol) :
  Keeps held (fun _ => True) (Compiling.intern name)
  := by
  refine .of_makes (.any _) fun t a t' h x hx => ?_
  cases h
  exact SymbolTable.mem_names_insert.2 (.inl hx)

end Keeps

end Compiling

namespace Compile

open Compiling
open Datum (weight weightAll)

/-! ### Dialects -/

/-- Some forms, with the names and literals that are found in them. -/
structure Dialect where
  Form : Datum → Prop
  Name : Symbol → Prop
  /-- Which conditions a catch clause names. -/
  Selects : String → Prop
  Literal : Datum → Prop
  /-- Which names are numbered before the forms are compiled, so that none of them is minted. -/
  Held : Symbol → Prop
  literal {d : Datum} : Form d → Literal d
  symbol {x : Symbol} : Form (.scalar (.symbol x)) → Name x
  keyword {kind : String} : Form (.scalar (.keyword kind)) → Selects kind
  vector {items : List Datum} : Form (.vector items) → ∀ d ∈ items, Form d
  list {items : List Datum} : Form (.list items) → (∀ d ∈ items, Form d) ∨
    ∃ args, items = .scalar (.symbol "quote") :: args ∧ ∀ d ∈ args, Literal d
  -- what compiling adds
  minted {stem : String} (h : stem ∈ ["and", "or", "limit", "depth"]) (n : Nat)
    (hn : ¬ Held (SymbolTable.spell stem n)) : Name (SymbolTable.spell stem n)
  known {x : Symbol} (h : x ∈ ["vector", "inc", "<"]) : Name x
  constant {s : Scalar} (h : s ∈ [.nil, .bool true, .int 0]) : Literal (.scalar s)

namespace Dialect

/-- All data are forms. -/
def all : Dialect where
  Form _ := True
  Name _ := True
  Selects _ := True
  Literal _ := True
  Held _ := False
  literal _ := trivial
  symbol _ := trivial
  keyword _ := trivial
  vector _ _ _ := trivial
  list _ := .inl fun _ _ => trivial
  minted _ _ _ := trivial
  known _ := trivial
  constant _ := trivial

/-- No names need be numbered before forms of a dialect are compiled. -/
class Unheld (D : Dialect) : Prop where
  not_held (x : Symbol) : ¬ D.Held x

/-- All data can be compiled on any table. -/
instance : all.Unheld := ⟨fun _ h => h⟩

/-- A dialect has forms of a special kind. -/
def Allows (D : Dialect) (s : SpecialForm) : Prop :=
  ∃ args, D.Form (.list (.scalar (.symbol s.name) :: args))

variable (D : Dialect)

/-- A minted name. -/
theorem fresh_keeps {stem : String} (h : stem ∈ ["and", "or", "limit", "depth"]) :
  Keeps D.Held D.Name (Skein.fresh stem)
  := by
  intro t x t' hheld hx
  have hnew := (fresh_spec hx).1
  have hgrows := grows_fresh stem t x t' hx
  obtain ⟨rfl, -⟩ := fresh_eq_ok_iff.1 hx
  exact ⟨fun y hy => hgrows y (hheld y hy), D.minted h _ fun hn => hnew (hheld _ hn)⟩

variable {D}

/-- The symbol that a form is. -/
theorem symbolOf_keeps (part : String) {d : Datum} (hd : D.Form d) :
  Keeps D.Held D.Name (symbolOf part d)
  := by
  unfold symbolOf
  split
  · exact .pure (D.symbol hd)
  · exact .throw _

/-- The symbols that some forms are. -/
theorem mapM_symbolOf_keeps (part : String) {ds : List Datum} (hds : ∀ d ∈ ds, D.Form d) :
  Keeps D.Held (fun xs => ∀ x ∈ xs, D.Name x) (ds.mapM (symbolOf part))
  := by
  induction ds with
  | nil => exact .pure fun _ h => absurd h List.not_mem_nil
  | cons d ds ih =>
    obtain ⟨hd, hds⟩ := List.forall_mem_cons.1 hds
    rw [List.mapM_cons]
    refine Keeps.bind (symbolOf_keeps part hd) fun x hx => ?_
    exact Keeps.bind (ih hds) fun xs hxs => .pure (List.forall_mem_cons.2 ⟨hx, hxs⟩)

/-- Checking the names of bindings adds none. -/
theorem checkNames_grows (ds : List Datum) :
  Grows (checkNames ds)
  := by
  fun_induction checkNames ds with
  | case1 name d rest ih =>
    refine Grows.bind ?_ fun _ => ih
    unfold symbolOf
    split
    · exact grows_pure _
    · exact grows_throw _
  | case2 => exact grows_pure _

/-- Checking that some forms are pairs. -/
theorem checkPairs_keeps (what : String) (ds : List Datum) :
  Keeps D.Held (fun _ => True) (checkPairs what ds)
  := by
  refine .of_makes (.any _) ?_
  unfold checkPairs
  split
  · exact checkNames_grows ds
  · exact grows_throw _

/-- The parameters of a function. -/
theorem paramsOf_keeps {d : Datum} (hd : D.Form d) :
  Keeps D.Held (fun xs => ∀ x ∈ xs, D.Name x) (paramsOf d)
  := by
  unfold paramsOf
  split
  · exact mapM_symbolOf_keeps _ (D.vector hd)
  · exact .throw _

end Dialect

/-! ### Kinds of trees -/

/-- A kind of trees: what forms of a dialect are put together to is of the kind when the parts
are. -/
structure Kind (D : Dialect) (o : Options) (P : Option Nat → Expr → Prop) : Prop where
  literal {arity : Option Nat} {d : Datum} : D.Literal d → P arity (.literal d)
  var {arity : Option Nat} {x : Symbol} : D.Name x → P arity (.var x)
  call {arity : Option Nat} {f : Expr} {args : List Expr} :
    P none f → (∀ a ∈ args, P none a) → P arity (.call f args)
  cond {arity : Option Nat} {test yes no : Expr} :
    P none test → P arity yes → P arity no → P arity (.cond test yes no)
  seq {arity : Option Nat} {es : List Expr} : 1 < es.length → Expr.SeqOf P arity es →
    P arity (.seq es)
  bind {arity : Option Nat} {bs : List (Symbol × Expr)} {body : Expr} : bs ≠ [] →
    (∀ b ∈ bs, D.Name b.1 ∧ P none b.2) → P arity body → P arity (.bind bs body)
  loop {arity : Option Nat} {bs : List (Symbol × Expr)} {body : Expr} :
    (bs.map (·.1)).Nodup → (∀ b ∈ bs, D.Name b.1 ∧ P none b.2) → P (some bs.length) body →
    P arity (.loop bs body)
  recur {args : List Expr} : (∀ a ∈ args, P none a) → P (some args.length) (.recur args)
  protect {arity : Option Nat} {body : Expr} {clauses : List (Clause Expr)}
    {cleanup : Option Expr} : P none body →
    (∀ c ∈ clauses, (∀ kind, c.selector = .kind kind → D.Selects kind) ∧ D.Name c.var ∧
      P none c.body) →
    (∀ e ∈ cleanup, P none e) → P arity (.protect body clauses cleanup)
  define {arity : Option Nat} {x : Symbol} {e : Expr} : D.Name x → P none e →
    P arity (.define x e)
  lambda {arity : Option Nat} {name : Option Symbol} {params : List Symbol} {body : Expr} :
    (∀ x ∈ name, D.Name x) → (∀ x ∈ params, D.Name x) → P none body →
    P arity (.lambda name params body)
  dynamically {arity : Option Nat} {depth : Symbol} {bs : List (Symbol × Expr)} {body : Expr} :
    D.Allows .dynamic → D.Name depth → (∀ b ∈ bs, D.Name b.1 ∧ P none b.2) → P none body →
    P arity (dynamically depth bs body)
  /-- The function that a coroutine body becomes. -/
  coroutine {arity : Option Nat} {flavor : String} {table : Coroutine.Table} {body : Expr} :
    D.Allows .async ∨ D.Allows .coroutine → o.flavors.table flavor = .ok table → P none body →
    Makes (P arity) (Coroutine.compile table body)

variable {D : Dialect} {o : Options} {P : Option Nat → Expr → Prop} {n : Nat}

/-- The empty value. -/
theorem Kind.nil (hP : Kind D o P) {arity : Option Nat} :
  P arity .nil
  := hP.literal (D.constant List.mem_cons_self)

/-- Bindings around a body. -/
theorem Kind.binding (hP : Kind D o P) {arity : Option Nat} {bs : List (Symbol × Expr)}
    {body : Expr} (hbs : ∀ b ∈ bs, D.Name b.1 ∧ P none b.2) (hbody : P arity body) :
  P arity (.binding bs body)
  := by
  rw [Expr.binding]
  split
  · exact hbody
  · rename_i hne
    exact hP.bind (fun h => hne (List.isEmpty_iff.2 h)) hbs hbody

/-- A sequence, which may be a single tree. -/
theorem Kind.block (hP : Kind D o P) {arity : Option Nat} {es : List Expr}
    (h : Expr.SeqOf P arity es) :
  P arity (.block es)
  := by
  unfold Expr.block
  split
  · exact hP.nil
  · exact h.last _ rfl
  · rename_i hnil hsingle
    refine hP.seq ?_ h
    match es with
    | [] => exact absurd rfl hnil
    | [e] => exact absurd rfl (hsingle e)
    | _ :: _ :: _ => exact Nat.succ_lt_succ (Nat.succ_pos _)

/-- What a catch clause is made of. -/
def Kind.OfClause (D : Dialect) (P : Option Nat → Expr → Prop) (c : Clause Expr) : Prop :=
  (∀ kind, c.selector = .kind kind → D.Selects kind) ∧ D.Name c.var ∧ P none c.body

/-- Whatever is made of small forms is of a kind. -/
structure MadeBelow (D : Dialect) (o : Options) (P : Option Nat → Expr → Prop) (n : Nat) :
    Prop where
  form (p : Position) {d : Datum} : D.Form d → 4 * weight d < n →
    Keeps D.Held (P p.reentry?) (form o p d)
  operands (p : Position) {ds : List Datum} : (∀ d ∈ ds, D.Form d) → 4 * weightAll ds + 1 < n →
    Keeps D.Held (fun es => es.length = ds.length ∧ ∀ e ∈ es, P none e) (operands o p ds)
  statements (p : Position) {ds : List Datum} : (∀ d ∈ ds, D.Form d) →
    4 * weightAll ds + 1 < n →
    Keeps D.Held (fun es => es.length = ds.length ∧ Expr.SeqOf P p.reentry? es) (statements o p ds)
  body (p : Position) {ds : List Datum} : (∀ d ∈ ds, D.Form d) → 4 * weightAll ds + 2 < n →
    Keeps D.Held (P p.reentry?) (body o p ds)
  bindings (p : Position) (distinct : Bool) (seen : List Symbol) {ds : List Datum} :
    (∀ d ∈ ds, D.Form d) → 4 * weightAll ds + 1 < n →
    Keeps D.Held (fun bs => (∀ b ∈ bs, D.Name b.1 ∧ P none b.2) ∧
      (distinct = true → (bs.map (·.1)).Nodup ∧ ∀ b ∈ bs, b.1 ∉ seen))
      (bindings o p distinct seen ds)
  function {name : Option Symbol} {ds : List Datum} : (∀ x ∈ name, D.Name x) →
    (∀ d ∈ ds, D.Form d) → 4 * weightAll ds + 2 < n →
    ∀ arity, Keeps D.Held (P arity) (function o name ds)
  coroutine (flavor : String) {ds : List Datum} : D.Allows .async ∨ D.Allows .coroutine →
    (∀ d ∈ ds, D.Form d) → 4 * weightAll ds + 3 < n →
    ∀ arity, Keeps D.Held (P arity) (coroutine o flavor ds)
  catchClause {selector : Selector} {ds : List Datum} :
    (∀ kind, selector = .kind kind → D.Selects kind) → (∀ d ∈ ds, D.Form d) →
    4 * weightAll ds + 2 < n → Keeps D.Held (Kind.OfClause D P) (catchClause o selector ds)
  clauses (closed : Bool) {ds : List Datum} : (∀ d ∈ ds, D.Form d) → 4 * weightAll ds + 1 < n →
    Keeps D.Held (fun r => (∀ c ∈ r.1, Kind.OfClause D P c) ∧ ∀ e ∈ r.2, P none e)
      (clauses o closed ds)
  protect {ds : List Datum} : (∀ d ∈ ds, D.Form d) → 4 * weightAll ds + 3 < n →
    ∀ arity, Keeps D.Held (P arity) (protect o ds)
  choices (p : Position) {ds : List Datum} : (∀ d ∈ ds, D.Form d) → 4 * weightAll ds + 1 < n →
    Keeps D.Held (P p.reentry?) (choices o p ds)
  shortCircuit (p : Position) (all : Bool) {ds : List Datum} : (∀ d ∈ ds, D.Form d) →
    4 * weightAll ds + 1 < n → Keeps D.Held (P p.reentry?) (shortCircuit o p all ds)
  special (p : Position) {s : SpecialForm} {ds : List Datum} : D.Allows s →
    (s ≠ .quote → ∀ d ∈ ds, D.Form d) → (∀ d ∈ ds, D.Literal d) → 4 * weightAll ds + 4 < n →
    Keeps D.Held (P p.reentry?) (special o p s ds)

namespace MadeBelow

variable (h : MadeBelow D o P n) {ds : List Datum}
include h

/-- Forms whose values are used by the form around them. -/
theorem operands_step (p : Position) (hds : ∀ d ∈ ds, D.Form d)
    (hn : 4 * weightAll ds + 1 ≤ n) :
  Keeps D.Held (fun es => es.length = ds.length ∧ ∀ e ∈ es, P none e) (Compile.operands o p ds)
  := by
  rw [Compile.operands.eq_def]
  split
  · exact .pure ⟨rfl, fun _ h => absurd h List.not_mem_nil⟩
  · rename_i d ds
    obtain ⟨hd, hds⟩ := List.forall_mem_cons.1 hds
    have := d.weight_pos
    simp only [weightAll] at hn
    refine Keeps.bind (h.form p.operand hd (by omega)) fun e he => ?_
    refine Keeps.bind (h.operands p hds (by omega)) fun es hes => ?_
    exact .pure ⟨congrArg (· + 1) hes.1, List.forall_mem_cons.2 ⟨he, hes.2⟩⟩

/-- The forms of a body. -/
theorem statements_step (p : Position) (hds : ∀ d ∈ ds, D.Form d)
    (hn : 4 * weightAll ds + 1 ≤ n) :
  Keeps D.Held (fun es => es.length = ds.length ∧ Expr.SeqOf P p.reentry? es)
    (Compile.statements o p ds)
  := by
  rw [Compile.statements.eq_def]
  split
  · exact .pure ⟨rfl, .nil⟩
  · simp only [weightAll] at hn
    exact Keeps.bind (h.form p (List.forall_mem_singleton.1 hds) (by omega)) fun e he =>
      .pure ⟨rfl, .singleton he⟩
  · rename_i d ds hmore
    obtain ⟨hd, hds⟩ := List.forall_mem_cons.1 hds
    have := d.weight_pos
    simp only [weightAll] at hn
    refine Keeps.bind (h.form p.operand hd (by omega)) fun e he => ?_
    refine Keeps.bind (h.statements p hds (by omega)) fun es hes => ?_
    have hne : es ≠ [] := by
      rintro rfl
      obtain rfl := List.length_eq_zero_iff.1 hes.1.symm
      exact hmore rfl
    exact .pure ⟨congrArg (· + 1) hes.1, hes.2.cons hne he⟩

/-- The bindings of a form. -/
theorem bindings_step (p : Position) (distinct : Bool) (seen : List Symbol)
    (hds : ∀ d ∈ ds, D.Form d) (hn : 4 * weightAll ds + 1 ≤ n) :
  Keeps D.Held (fun bs => (∀ b ∈ bs, D.Name b.1 ∧ P none b.2) ∧
    (distinct = true → (bs.map (·.1)).Nodup ∧ ∀ b ∈ bs, b.1 ∉ seen))
    (Compile.bindings o p distinct seen ds)
  := by
  rw [Compile.bindings.eq_def]
  split
  · rename_i x d rest
    obtain ⟨hx, hds⟩ := List.forall_mem_cons.1 hds
    obtain ⟨hd, hrest⟩ := List.forall_mem_cons.1 hds
    have := d.weight_pos
    simp only [weightAll] at hn
    split
    · exact .throw _
    · rename_i hseen
      refine Keeps.bind (h.form p.operand hd (by omega)) fun e he => ?_
      refine Keeps.bind (h.bindings p distinct (x :: seen) hrest (by omega)) fun bs hbs => ?_
      refine .pure ⟨List.forall_mem_cons.2 ⟨⟨D.symbol hx, he⟩, hbs.1⟩, fun hdistinct => ?_⟩
      obtain ⟨hnodup, hnew⟩ := hbs.2 hdistinct
      have hxseen : x ∉ seen := by
        simpa [hdistinct] using hseen
      refine ⟨List.nodup_cons.2 ⟨fun hmem => ?_, hnodup⟩, List.forall_mem_cons.2 ⟨hxseen, ?_⟩⟩
      · obtain ⟨b, hb, rfl⟩ := List.mem_map.1 hmem
        exact hnew b hb List.mem_cons_self
      · exact fun b hb hmem => hnew b hb (List.mem_cons_of_mem _ hmem)
  · exact .pure ⟨fun _ h => absurd h List.not_mem_nil,
      fun _ => ⟨List.nodup_nil, fun _ h => absurd h List.not_mem_nil⟩⟩

/-- A catch clause. -/
theorem catchClause_step {selector : Selector}
    (hselector : ∀ kind, selector = .kind kind → D.Selects kind) (hds : ∀ d ∈ ds, D.Form d)
    (hn : 4 * weightAll ds + 2 ≤ n) :
  Keeps D.Held (Kind.OfClause D P) (Compile.catchClause o selector ds)
  := by
  rw [Compile.catchClause.eq_def]
  split
  · exact .throw _
  · rename_i x rest
    obtain ⟨hx, hrest⟩ := List.forall_mem_cons.1 hds
    have := x.weight_pos
    simp only [weightAll] at hn
    refine Keeps.bind (Dialect.symbolOf_keeps _ hx) fun y hy => ?_
    exact Keeps.bind (h.body .top hrest (by omega)) fun e he => .pure ⟨hselector, hy, he⟩

/-- The clauses of a protected body. -/
theorem clauses_step (closed : Bool) (hds : ∀ d ∈ ds, D.Form d)
    (hn : 4 * weightAll ds + 1 ≤ n) :
  Keeps D.Held (fun r => (∀ c ∈ r.1, Kind.OfClause D P c) ∧ ∀ e ∈ r.2, P none e)
    (Compile.clauses o closed ds)
  := by
  rw [Compile.clauses.eq_def]
  split
  · exact .pure ⟨fun _ h => absurd h List.not_mem_nil, fun e he => absurd he (Option.not_mem_none e)⟩
  · rename_i d rest
    obtain ⟨hd, hrest⟩ := List.forall_mem_cons.1 hds
    split
    · rename_i items
      split
      · exact .throw _
      · simp only [weight, weightAll] at hn
        have hparts : ∀ {x : Symbol} {parts : List Datum}, x ≠ "quote" →
            D.Form (.list (.scalar (.symbol x) :: parts)) → ∀ d ∈ parts, D.Form d := by
          intro x parts hx hform
          rcases D.list hform with hall | ⟨args, heq, -⟩
          · exact (List.forall_mem_cons.1 hall).2
          · cases heq
            exact absurd rfl hx
        split
        · rename_i kind parts
          obtain ⟨hkind, hparts⟩ := List.forall_mem_cons.1 (hparts (by decide) hd)
          simp only [weight, weightAll] at hn
          refine Keeps.bind (h.catchClause ?_ hparts (by omega)) fun c hc => ?_
          · rintro _ ⟨⟩
            exact D.keyword hkind
          refine Keeps.bind (h.clauses false hrest (by omega)) fun r hr => ?_
          exact .pure ⟨List.forall_mem_cons.2 ⟨hc, hr.1⟩, hr.2⟩
        · rename_i parts _
          simp only [weight, weightAll] at hn
          refine Keeps.bind (h.catchClause (by rintro _ ⟨⟩) (hparts (by decide) hd) (by omega))
            fun c hc => ?_
          refine Keeps.bind (h.clauses false hrest (by omega)) fun r hr => ?_
          exact .pure ⟨List.forall_mem_cons.2 ⟨hc, hr.1⟩, hr.2⟩
        · rename_i parts
          simp only [weight, weightAll] at hn
          refine Keeps.bind (h.body .top (hparts (by decide) hd) (by omega)) fun e he => ?_
          refine Keeps.bind (h.clauses true hrest (by omega)) fun _ _ => ?_
          exact .pure ⟨fun _ h => absurd h List.not_mem_nil, fun e' he' => by
            obtain rfl := Option.some.inj he'
            exact he⟩
        · exact .throw _
    · exact .throw _

variable (hP : Kind D o P)
include hP

/-- A form. -/
theorem form_step (p : Position) {d : Datum} (hd : D.Form d) (hn : 4 * weight d ≤ n) :
  Keeps D.Held (P p.reentry?) (Compile.form o p d)
  := by
  rw [Compile.form.eq_def]
  split
  · exact .pure (hP.var (D.symbol hd))
  · exact .pure (hP.literal (D.literal hd))
  · exact .pure (hP.literal (D.literal hd))
  · simp only [weight] at hn
    refine Keeps.bind (h.operands p (D.vector hd) (by omega)) fun args hargs => ?_
    refine Keeps.bind (.intern _) fun _ _ => ?_
    exact .pure (hP.call (hP.var (D.known (by decide))) hargs.2)
  · rename_i x args
    simp only [weight, weightAll] at hn
    split
    · rename_i s hs
      obtain rfl := SpecialForm.name_of_ofName? hs
      rcases D.list hd with hall | ⟨quoted, heq, hquoted⟩
      · have hargs := (List.forall_mem_cons.1 hall).2
        exact h.special p ⟨args, hd⟩ (fun _ => hargs) (fun a ha => D.literal (hargs a ha)) (by omega)
      · obtain ⟨hname, rfl⟩ := List.cons.inj heq
        have hquote : s = .quote := SpecialForm.name_injective (Scalar.symbol.inj (Datum.scalar.inj hname))
        exact h.special p ⟨args, hd⟩ (absurd hquote) hquoted (by omega)
    · rename_i hnone
      rcases D.list hd with hall | ⟨quoted, heq, -⟩
      · obtain ⟨hx, hargs⟩ := List.forall_mem_cons.1 hall
        exact Keeps.bind (h.operands p hargs (by omega)) fun args hargs =>
          .pure (hP.call (hP.var (D.symbol hx)) hargs.2)
      · cases heq
        cases hnone
  · rename_i f args hsymbol
    simp only [weight, weightAll] at hn
    rcases D.list hd with hall | ⟨quoted, heq, -⟩
    · obtain ⟨hf, hargs⟩ := List.forall_mem_cons.1 hall
      refine Keeps.bind (h.form p.operand hf (by omega)) fun f hf => ?_
      exact Keeps.bind (h.operands p hargs (by omega)) fun args hargs =>
        .pure (hP.call hf hargs.2)
    · exact absurd (List.cons.inj heq).1 (hsymbol _)

/-- A body. -/
theorem body_step (p : Position) (hds : ∀ d ∈ ds, D.Form d) (hn : 4 * weightAll ds + 2 ≤ n) :
  Keeps D.Held (P p.reentry?) (Compile.body o p ds)
  := by
  rw [Compile.body.eq_def]
  exact Keeps.bind (h.statements p hds (by omega)) fun es hes => .pure (hP.block hes.2)

/-- A function literal. -/
theorem function_step {name : Option Symbol} (hname : ∀ x ∈ name, D.Name x)
    (hds : ∀ d ∈ ds, D.Form d) (arity : Option Nat) (hn : 4 * weightAll ds + 2 ≤ n) :
  Keeps D.Held (P arity) (Compile.function o name ds)
  := by
  rw [Compile.function.eq_def]
  split
  · exact .throw _
  · rename_i params rest
    obtain ⟨hparams, hrest⟩ := List.forall_mem_cons.1 hds
    have := params.weight_pos
    simp only [weightAll] at hn
    refine Keeps.bind (Dialect.paramsOf_keeps hparams) fun xs hxs => ?_
    exact Keeps.bind (h.body .top hrest (by omega)) fun e he => .pure (hP.lambda hname hxs he)

/-- The function that a coroutine body becomes. -/
theorem coroutine_step (flavor : String) (hallows : D.Allows .async ∨ D.Allows .coroutine)
    (hds : ∀ d ∈ ds, D.Form d) (arity : Option Nat) (hn : 4 * weightAll ds + 3 ≤ n) :
  Keeps D.Held (P arity) (Compile.coroutine o flavor ds)
  := by
  rw [Compile.coroutine.eq_def]
  refine Keeps.bind (Keeps.ofExcept fun table htable => htable) fun table htable => ?_
  refine Keeps.bind (h.body .top hds (by omega)) fun e he => ?_
  unfold coroutineOf
  split
  · exact .throw _
  · exact .of_makes (hP.coroutine hallows htable he) (Coroutine.compile_grows table e)

/-- A protected body and its clauses. -/
theorem protect_step (hds : ∀ d ∈ ds, D.Form d) (arity : Option Nat)
    (hn : 4 * weightAll ds + 3 ≤ n) :
  Keeps D.Held (P arity) (Compile.protect o ds)
  := by
  have hbefore := List.takeWhile_sublist (!isClause ·) (l := ds)
  have hafter := List.dropWhile_sublist (!isClause ·) (l := ds)
  have hbefore' := Datum.weightAll_le_of_sublist hbefore
  have hafter' := Datum.weightAll_le_of_sublist hafter
  rw [Compile.protect.eq_def]
  refine Keeps.bind (h.body .top (fun d hd => hds d (hbefore.subset hd)) (by omega)) fun e he => ?_
  refine Keeps.bind (h.clauses false (fun d hd => hds d (hafter.subset hd)) (by omega))
    fun r hr => ?_
  exact .pure (hP.protect he hr.1 hr.2)

/-- Nested conditionals. -/
theorem choices_step (p : Position) (hds : ∀ d ∈ ds, D.Form d)
    (hn : 4 * weightAll ds + 1 ≤ n) :
  Keeps D.Held (P p.reentry?) (Compile.choices o p ds)
  := by
  rw [Compile.choices.eq_def]
  split
  · rename_i test d rest
    obtain ⟨htest, hds⟩ := List.forall_mem_cons.1 hds
    obtain ⟨hd, hrest⟩ := List.forall_mem_cons.1 hds
    have := d.weight_pos
    have := test.weight_pos
    simp only [weightAll] at hn
    refine Keeps.bind (h.choices p hrest (by omega)) fun no hno => ?_
    refine Keeps.bind (h.form p hd (by omega)) fun yes hyes => ?_
    split
    · exact .pure hyes
    · exact Keeps.bind (h.form p.operand htest (by omega)) fun e he =>
        .pure (hP.cond he hyes hno)
  · exact .pure hP.nil

/-- A conjunction or a disjunction. -/
theorem shortCircuit_step (p : Position) (all : Bool) (hds : ∀ d ∈ ds, D.Form d)
    (hn : 4 * weightAll ds + 1 ≤ n) :
  Keeps D.Held (P p.reentry?) (Compile.shortCircuit o p all ds)
  := by
  rw [Compile.shortCircuit.eq_def]
  split
  · cases all with
    | true => exact .pure (hP.literal (D.constant (List.mem_cons_of_mem _ List.mem_cons_self)))
    | false => exact .pure hP.nil
  · simp only [weightAll] at hn
    exact h.form p (List.forall_mem_singleton.1 hds) (by omega)
  · rename_i d ds _
    obtain ⟨hd, hds⟩ := List.forall_mem_cons.1 hds
    have := d.weight_pos
    simp only [weightAll] at hn
    refine Keeps.bind (D.fresh_keeps (by cases all <;> decide)) fun t ht => ?_
    refine Keeps.bind (h.form p.operand hd (by omega)) fun first (hfirst : P none first) => ?_
    refine Keeps.bind (h.shortCircuit p all hds (by omega)) fun rest hrest => ?_
    apply Keeps.pure
    apply hP.binding (List.forall_mem_singleton.2 ⟨ht, hfirst⟩)
    cases all with
    | true => exact hP.cond (hP.var ht) hrest (hP.var ht)
    | false => exact hP.cond (hP.var ht) (hP.var ht) hrest

/-- A definition of a function. -/
theorem defineFunction_step (p : Position) (hds : ∀ d ∈ ds, D.Form d)
    (hn : 4 * weightAll ds + 4 ≤ n) :
  Keeps D.Held (P p.reentry?) (Compile.special o p .defineFunction ds)
  := by
  rw [Compile.special.eq_def]
  dsimp only
  split
  · rename_i x params rest
    obtain ⟨hx, hds⟩ := List.forall_mem_cons.1 hds
    have := x.weight_pos
    simp only [weightAll] at hn
    refine Keeps.bind (Dialect.symbolOf_keeps _ hx) fun y hy => ?_
    have hname : ∀ z ∈ some y, D.Name z := by
      rintro _ ⟨⟩
      exact hy
    refine Keeps.bind (h.function hname hds ?_ none) fun e he => ?_
    · simp only [weightAll]
      omega
    · exact .pure (hP.define hy he)
  · exact .throw _

/-- A loop while a test holds. -/
theorem repeatWhile_step (p : Position) (hds : ∀ d ∈ ds, D.Form d)
    (hn : 4 * weightAll ds + 4 ≤ n) :
  Keeps D.Held (P p.reentry?) (Compile.special o p .repeatWhile ds)
  := by
  rw [Compile.special.eq_def]
  dsimp only
  split
  · exact .throw _
  · rename_i test rest
    obtain ⟨htest, hrest⟩ := List.forall_mem_cons.1 hds
    have := test.weight_pos
    simp only [weightAll] at hn
    refine Keeps.bind (h.form _ htest (by omega)) fun e he => ?_
    refine Keeps.bind (h.operands _ hrest (by omega)) fun es hes => ?_
    have hnext : P (some 0) (.recur []) := hP.recur fun _ h => absurd h List.not_mem_nil
    refine .pure (hP.loop List.nodup_nil (fun _ h => absurd h List.not_mem_nil) ?_)
    exact hP.cond he (hP.block (.concat hes.2 hnext)) hP.nil

/-- A counted loop. -/
theorem countUp_step (p : Position) (hds : ∀ d ∈ ds, D.Form d)
    (hn : 4 * weightAll ds + 4 ≤ n) :
  Keeps D.Held (P p.reentry?) (Compile.special o p .countUp ds)
  := by
  rw [Compile.special.eq_def]
  dsimp only
  split
  · exact .throw _
  · rename_i items rest
    obtain ⟨hitems, hrest⟩ := List.forall_mem_cons.1 hds
    simp only [weight, weightAll] at hn
    refine Keeps.bind (Dialect.checkPairs_keeps _ _) fun _ _ => ?_
    split
    · rename_i counter count
      obtain ⟨hcounter, hcount⟩ := List.forall_mem_cons.1 (D.vector hitems)
      have hcounter := D.symbol hcounter
      simp only [weight, weightAll] at hn
      refine Keeps.bind (D.fresh_keeps (by decide)) fun limit hlimit => ?_
      refine Keeps.bind (h.form _ (List.forall_mem_singleton.1 hcount) (by omega)) fun e he => ?_
      refine Keeps.bind (h.operands _ hrest (by omega)) fun es hes => ?_
      refine Keeps.bind (.intern _) fun _ _ => Keeps.bind (.intern _) fun _ _ => ?_
      have hnext : P (some 1) (.recur [.call (.var "inc") [.var counter]]) :=
        hP.recur (List.forall_mem_singleton.2 (hP.call (hP.var (D.known (by decide)))
          (List.forall_mem_singleton.2 (hP.var hcounter))))
      have htest : P none (.call (.var "<") [.var counter, .var limit]) :=
        hP.call (hP.var (D.known (by decide))) (List.forall_mem_cons.2
          ⟨hP.var hcounter, List.forall_mem_singleton.2 (hP.var hlimit)⟩)
      have hzero : P none (.literal (.scalar (.int 0))) :=
        hP.literal (D.constant (List.mem_cons_of_mem _ (List.mem_cons_of_mem _ List.mem_cons_self)))
      refine .pure (hP.binding (List.forall_mem_singleton.2 ⟨hlimit, he⟩) ?_)
      refine hP.loop (List.nodup_singleton _) (List.forall_mem_singleton.2 ⟨hcounter, hzero⟩) ?_
      exact hP.cond htest (hP.block (.concat hes.2 hnext)) hP.nil
    · exact .throw _
  · exact .throw _

/-- A form that binds names. -/
theorem dynamic_step (p : Position) (hallows : D.Allows .dynamic) (hds : ∀ d ∈ ds, D.Form d)
    (hn : 4 * weightAll ds + 4 ≤ n) :
  Keeps D.Held (P p.reentry?) (Compile.special o p .dynamic ds)
  := by
  rw [Compile.special.eq_def]
  dsimp only
  split
  · exact .throw _
  · rename_i items rest
    obtain ⟨hitems, hrest⟩ := List.forall_mem_cons.1 hds
    simp only [weight, weightAll] at hn
    refine Keeps.bind (Dialect.checkPairs_keeps _ _) fun _ _ => ?_
    refine Keeps.bind (h.bindings p false [] (D.vector hitems) (by omega)) fun bs hbs => ?_
    refine Keeps.bind (D.fresh_keeps (by decide)) fun depth hdepth => ?_
    refine Keeps.bind (h.body .top hrest (by omega)) fun e he => ?_
    exact .pure (hP.dynamically hallows hdepth hbs.1 he)
  · exact .throw _

/-- A special form. -/
theorem special_step (p : Position) {s : SpecialForm} (hallows : D.Allows s)
    (hds : s ≠ .quote → ∀ d ∈ ds, D.Form d) (hliterals : ∀ d ∈ ds, D.Literal d)
    (hn : 4 * weightAll ds + 4 ≤ n) :
  Keeps D.Held (P p.reentry?) (Compile.special o p s ds)
  := by
  rcases eq_or_ne s .quote with rfl | hquote
  · rw [Compile.special.eq_def]
    dsimp only
    split
    · exact .pure (hP.literal (List.forall_mem_singleton.1 hliterals))
    · exact .throw _
  replace hds := hds hquote
  cases s with
  | quote => exact absurd rfl hquote
  | defineFunction => exact h.defineFunction_step hP p hds hn
  | repeatWhile => exact h.repeatWhile_step hP p hds hn
  | countUp => exact h.countUp_step hP p hds hn
  | dynamic => exact h.dynamic_step hP p hallows hds hn
  | ifElse =>
    rw [Compile.special.eq_def]
    dsimp only
    split
    · obtain ⟨htest, hyes⟩ := List.forall_mem_cons.1 hds
      simp only [weightAll] at hn
      refine Keeps.bind (h.form _ htest (by omega)) fun test htest => ?_
      refine Keeps.bind (h.form _ (List.forall_mem_singleton.1 hyes) (by omega)) fun yes hyes => ?_
      exact .pure (hP.cond htest hyes hP.nil)
    · obtain ⟨htest, hds⟩ := List.forall_mem_cons.1 hds
      obtain ⟨hyes, hno⟩ := List.forall_mem_cons.1 hds
      simp only [weightAll] at hn
      refine Keeps.bind (h.form _ htest (by omega)) fun test htest => ?_
      refine Keeps.bind (h.form _ hyes (by omega)) fun yes hyes => ?_
      refine Keeps.bind (h.form _ (List.forall_mem_singleton.1 hno) (by omega)) fun no hno => ?_
      exact .pure (hP.cond htest hyes hno)
    · exact .throw _
  | sequence =>
    rw [Compile.special.eq_def]
    exact h.body p hds (by omega)
  | bind =>
    rw [Compile.special.eq_def]
    dsimp only
    split
    · exact .throw _
    · obtain ⟨hitems, hrest⟩ := List.forall_mem_cons.1 hds
      simp only [weight, weightAll] at hn
      refine Keeps.bind (Dialect.checkPairs_keeps _ _) fun _ _ => ?_
      refine Keeps.bind (h.bindings p false [] (D.vector hitems) (by omega)) fun bs hbs => ?_
      exact Keeps.bind (h.body p hrest (by omega)) fun e he => .pure (hP.binding hbs.1 he)
    · exact .throw _
  | loop =>
    rw [Compile.special.eq_def]
    dsimp only
    split
    · exact .throw _
    · obtain ⟨hitems, hrest⟩ := List.forall_mem_cons.1 hds
      simp only [weight, weightAll] at hn
      refine Keeps.bind (Dialect.checkPairs_keeps _ _) fun _ _ => ?_
      refine Keeps.bind (h.bindings p true [] (D.vector hitems) (by omega)) fun bs hbs => ?_
      exact Keeps.bind (h.body _ hrest (by omega)) fun e he =>
        .pure (hP.loop (hbs.2 rfl).1 hbs.1 he)
    · exact .throw _
  | recur =>
    rw [Compile.special.eq_def]
    dsimp only
    split
    · exact .throw _
    · rename_i arity hreentry
      rw [hreentry]
      split
      · rename_i hlength
        refine Keeps.bind (h.operands p hds (by omega)) fun es hes => ?_
        rw [← hlength, ← hes.1]
        exact .pure (hP.recur hes.2)
      · exact .throw _
  | protect =>
    rw [Compile.special.eq_def]
    exact h.protect hds (by omega) _
  | define =>
    rw [Compile.special.eq_def]
    dsimp only
    split
    · obtain ⟨hx, hd⟩ := List.forall_mem_cons.1 hds
      simp only [weightAll] at hn
      refine Keeps.bind (Dialect.symbolOf_keeps _ hx) fun x hx => ?_
      exact Keeps.bind (h.form _ (List.forall_mem_singleton.1 hd) (by omega)) fun e he =>
        .pure (hP.define hx he)
    · exact .throw _
  | function =>
    rw [Compile.special.eq_def]
    dsimp only
    split
    · obtain ⟨hname, hrest⟩ := List.forall_mem_cons.1 hds
      simp only [weight, weightAll] at hn
      refine h.function ?_ hrest (by omega) _
      rintro _ ⟨⟩
      exact D.symbol hname
    · exact h.function (fun x hx => absurd hx (Option.not_mem_none x)) hds (by omega) _
  | async =>
    rw [Compile.special.eq_def]
    exact h.coroutine _ (.inl hallows) hds (by omega) _
  | coroutine =>
    rw [Compile.special.eq_def]
    dsimp only
    split
    · simp only [weight, weightAll] at hn
      exact h.coroutine _ (.inr hallows) (List.forall_mem_cons.1 hds).2 (by omega) _
    · exact .throw _
  | cond =>
    rw [Compile.special.eq_def]
    dsimp only
    split
    · exact h.choices p hds (by omega)
    · exact .throw _
  | whenTrue =>
    rw [Compile.special.eq_def]
    dsimp only
    split
    · exact .throw _
    · rename_i test rest
      obtain ⟨htest, hrest⟩ := List.forall_mem_cons.1 hds
      have := test.weight_pos
      simp only [weightAll] at hn
      refine Keeps.bind (h.form _ htest (by omega)) fun test htest => ?_
      refine Keeps.bind (h.body p hrest (by omega)) fun yes hyes => ?_
      exact .pure (hP.cond htest hyes hP.nil)
  | whenFalse =>
    rw [Compile.special.eq_def]
    dsimp only
    split
    · exact .throw _
    · rename_i test rest
      obtain ⟨htest, hrest⟩ := List.forall_mem_cons.1 hds
      have := test.weight_pos
      simp only [weightAll] at hn
      refine Keeps.bind (h.form _ htest (by omega)) fun test htest => ?_
      refine Keeps.bind (h.body p hrest (by omega)) fun no hno => ?_
      exact .pure (hP.cond htest hP.nil hno)
  | conjunction =>
    rw [Compile.special.eq_def]
    exact h.shortCircuit p true hds (by omega)
  | disjunction =>
    rw [Compile.special.eq_def]
    exact h.shortCircuit p false hds (by omega)

end MadeBelow

/-- Whatever is made of forms is of the kind, by induction on a bound of their weight. -/
theorem madeBelow (hP : Kind D o P) (n : Nat) :
  MadeBelow D o P n
  := by
  induction n with
  | zero => constructor <;> intros <;> omega
  | succ n ih =>
    exact {
      form := fun p _ hd hn => ih.form_step hP p hd (Nat.le_of_lt_succ hn)
      operands := fun p _ hds hn => ih.operands_step p hds (Nat.le_of_lt_succ hn)
      statements := fun p _ hds hn => ih.statements_step p hds (Nat.le_of_lt_succ hn)
      body := fun p _ hds hn => ih.body_step hP p hds (Nat.le_of_lt_succ hn)
      bindings := fun p distinct seen _ hds hn =>
        ih.bindings_step p distinct seen hds (Nat.le_of_lt_succ hn)
      function := fun hname hds hn n =>
        ih.function_step hP hname hds n (Nat.le_of_lt_succ hn)
      coroutine := fun flavor _ hallows hds hn n =>
        ih.coroutine_step hP flavor hallows hds n (Nat.le_of_lt_succ hn)
      catchClause := fun hs hds hn => ih.catchClause_step hs hds (Nat.le_of_lt_succ hn)
      clauses := fun closed _ hds hn => ih.clauses_step closed hds (Nat.le_of_lt_succ hn)
      protect := fun hds hn n => ih.protect_step hP hds n (Nat.le_of_lt_succ hn)
      choices := fun p _ hds hn => ih.choices_step hP p hds (Nat.le_of_lt_succ hn)
      shortCircuit := fun p all _ hds hn =>
        ih.shortCircuit_step hP p all hds (Nat.le_of_lt_succ hn)
      special := fun p _ _ hallows hds hliterals hn =>
        ih.special_step hP p hallows hds hliterals (Nat.le_of_lt_succ hn) }

/-- The body of a function or of a coroutine is compiled to a tree of the kind. -/
theorem body_kind [hD : D.Unheld] (hP : Kind D o P) (p : Position) {ds : List Datum}
    (hds : ∀ d ∈ ds, D.Form d) :
  Makes (P p.reentry?) (Compile.body o p ds)
  := fun t e t' he => ((madeBelow hP _).body p hds (Nat.lt_succ_self _) t e t'
    (fun x hx => absurd hx (hD.not_held x)) he).2

/-- Every form of the dialect is compiled to a tree of the kind, where the names that the dialect
holds are numbered. -/
theorem form_kind (hP : Kind D o P) (p : Position) {d : Datum} (hd : D.Form d) :
  Keeps D.Held (P p.reentry?) (Compile.form o p d)
  := (madeBelow hP _).form p hd (Nat.lt_succ_self _)

/-- Every form of the dialect is compiled to a tree of the kind. -/
theorem compile_kind [hD : D.Unheld] (hP : Kind D o P) {d : Datum} (hd : D.Form d) :
  Makes (P none) (Compile.compile o d)
  := fun t e t' he =>
    (form_kind hP .top hd t e t' (fun x hx => absurd hx (hD.not_held x)) he).2

end Compile

end Skein
