import Skein.Expr.Text
import Skein.Proofs.Forms
import Skein.Proofs.Parts
import Skein.Proofs.Printing

/-!
# Written trees

The text of a tree spells a form, and the form is compiled to the tree again.  This holds of the
trees that forms are compiled to without a function held by the tree: names and literals in them
are found by the scanner, sequences have several trees, bindings are not empty, and a loop is
re-entered with as many values as it has names.

A vector among the literals is written like the call that makes a vector, and the call of a
variable with the name of a special form is written like that form, so such trees are left out.
-/

namespace Skein

open Source (Token Spells Bracket)

/-! ### Texts in a row -/

namespace Source

variable {text : String} {texts texts' : List String} {ds ds' : List Datum}

/-- Some texts spell data, each of them a piece of these. -/
def SpellInTurn (texts : List String) (ds : List Datum) : Prop :=
  ∃ dss, List.Forall₂ (fun text ds => Spells text.toList ds) texts dss ∧ dss.flatten = ds

namespace SpellInTurn

/-- No texts. -/
theorem nil :
  SpellInTurn [] []
  := ⟨[], .nil, rfl⟩

/-- One more text before the others. -/
theorem cons (h : Spells text.toList ds) (hs : SpellInTurn texts ds') :
  SpellInTurn (text :: texts) (ds ++ ds')
  := by
  obtain ⟨dss, hdss, rfl⟩ := hs
  exact ⟨ds :: dss, .cons h hdss, rfl⟩

/-- One text. -/
theorem singleton (h : Spells text.toList ds) :
  SpellInTurn [text] ds
  := ⟨[ds], .cons h .nil, List.flatten_singleton⟩

/-- Some texts after others. -/
theorem append (h : SpellInTurn texts ds) (h' : SpellInTurn texts' ds') :
  SpellInTurn (texts ++ texts') (ds ++ ds')
  := by
  obtain ⟨dss, hdss, rfl⟩ := h
  obtain ⟨dss', hdss', rfl⟩ := h'
  exact ⟨dss ++ dss', List.rel_append hdss hdss', List.flatten_append⟩

/-- The texts with spaces between them. -/
theorem spaced (h : SpellInTurn texts ds) :
  Spells (Text.spaced texts).toList ds
  := by
  obtain ⟨dss, hdss, rfl⟩ := h
  exact .row hdss

/-- The texts in parentheses. -/
theorem list (h : SpellInTurn texts ds) :
  Spells ("(" ++ Text.spaced texts ++ ")").toList [.list ds]
  := by
  rw [toList_round]
  exact .bracket .round h.spaced

/-- The texts in square brackets. -/
theorem vector (h : SpellInTurn texts ds) :
  Spells ("[" ++ Text.spaced texts ++ "]").toList [.vector ds]
  := by
  rw [toList_square]
  exact .bracket .square h.spaced

end SpellInTurn

/-! ### Names -/

/-- A symbol spells itself. -/
theorem Token.Occurs.spells {x : String} (h : (Token.symbol x).Occurs) :
  Spells x.toList [.symbol x]
  := (Datum.IsPrintable.symbol h).spells

/-- The names of special forms are found by the scanner. -/
theorem occurs_name (s : Compile.SpecialForm) :
  (Token.symbol s.name).Occurs
  := by
  apply Token.Occurs.of_isPlainName
  cases s <;> decide +kernel

end Source

/-! ### The form of a text -/

/-- The form that the text of a literal spells: a list or a symbol stands behind a quote mark. -/
def Datum.quotedForm : Datum → Datum
  | d@(.list _) | d@(.scalar (.symbol _)) => .list [.symbol "quote", d]
  | d => d

/-- The names of special forms and of the clauses of a protected body. -/
def Compile.isReserved (x : Symbol) : Bool :=
  (SpecialForm.ofName? x).isSome || x == "catch" || x == "finally"

namespace Expr

mutual

/-- The form that the text of a tree spells.  A function held by the tree has none, and `nil`
stands for it. -/
def source : Expr → Datum
  | literal d => d.quotedForm
  | builtin _ => .nil
  | var x => .symbol x
  | call f args => .list (source f :: sources args)
  | cond test yes no => .list [.symbol "if", source test, source yes, source no]
  | seq es => .list (.symbol "do" :: sources es)
  | bind bindings body =>
    .list [.symbol "let", .vector (bindingSources bindings), source body]
  | loop bindings body =>
    .list [.symbol "loop", .vector (bindingSources bindings), source body]
  | recur args => .list (.symbol "recur" :: sources args)
  | protect body clauses cleanup =>
    .list (.symbol "try" :: source body :: (clauseSources clauses ++ cleanupSources cleanup))
  | define x e => .list [.symbol "def", .symbol x, source e]
  | lambda name params body =>
    .list (.symbol "fn" :: (name.toList.map .symbol ++ [.vector (params.map .symbol), source body]))

/-- The forms of some trees. -/
def sources : List Expr → List Datum
  | [] => []
  | e :: es => source e :: sources es

/-- The forms of some bindings, in a row. -/
def bindingSources : List (Symbol × Expr) → List Datum
  | [] => []
  | (x, e) :: bs => .symbol x :: source e :: bindingSources bs

/-- The forms of some clauses. -/
def clauseSources : List (Clause Expr) → List Datum
  | [] => []
  | ⟨.any, x, e⟩ :: cs => .list [.symbol "catch", .symbol x, source e] :: clauseSources cs
  | ⟨.kind kind, x, e⟩ :: cs =>
    .list [.symbol "catch", .scalar (.keyword kind), .symbol x, source e] :: clauseSources cs

/-- The form of a cleanup, if there is one. -/
def cleanupSources : Option Expr → List Datum
  | none => []
  | some e => [.list [.symbol "finally", source e]]

end

/-- Trees that the scanner finds the names and the literals of, and that are put together as forms
put them together.  In the tail of such a tree, a loop may be re-entered with some number of
values. -/
inductive Written : Option Nat → Expr → Prop where
  | literal {arity : Option Nat} {d : Datum} (h : d.IsPrintable) : Written arity (.literal d)
  | var {arity : Option Nat} {x : Symbol} (h : (Token.symbol x).Occurs) : Written arity (.var x)
  | call {arity : Option Nat} {f : Expr} {args : List Expr} (hf : Written none f)
    (hargs : ∀ a ∈ args, Written none a) : Written arity (.call f args)
  | cond {arity : Option Nat} {test yes no : Expr} (htest : Written none test)
    (hyes : Written arity yes) (hno : Written arity no) : Written arity (.cond test yes no)
  | seq {arity : Option Nat} {es : List Expr} (hlength : 1 < es.length)
    (hbefore : ∀ e ∈ es.dropLast, Written none e) (hlast : ∀ e ∈ es.getLast?, Written arity e) :
    Written arity (.seq es)
  | bind {arity : Option Nat} {bs : List (Symbol × Expr)} {body : Expr} (hne : bs ≠ [])
    (hnames : ∀ b ∈ bs, (Token.symbol b.1).Occurs) (hbs : ∀ b ∈ bs, Written none b.2)
    (hbody : Written arity body) : Written arity (.bind bs body)
  | loop {arity : Option Nat} {bs : List (Symbol × Expr)} {body : Expr}
    (hdistinct : (bs.map (·.1)).Nodup) (hnames : ∀ b ∈ bs, (Token.symbol b.1).Occurs)
    (hbs : ∀ b ∈ bs, Written none b.2) (hbody : Written (some bs.length) body) :
    Written arity (.loop bs body)
  | recur {args : List Expr} (hargs : ∀ a ∈ args, Written none a) :
    Written (some args.length) (.recur args)
  | protect {arity : Option Nat} {body : Expr} {clauses : List (Clause Expr)}
    {cleanup : Option Expr} (hbody : Written none body)
    (hselectors : ∀ c ∈ clauses, ∀ kind, c.selector = .kind kind → (Token.keyword kind).Occurs)
    (hnames : ∀ c ∈ clauses, (Token.symbol c.var).Occurs)
    (hclauses : ∀ c ∈ clauses, Written none c.body) (hcleanup : ∀ e ∈ cleanup, Written none e) :
    Written arity (.protect body clauses cleanup)
  | define {arity : Option Nat} {x : Symbol} {e : Expr} (hname : (Token.symbol x).Occurs)
    (he : Written none e) : Written arity (.define x e)
  | lambda {arity : Option Nat} {name : Option Symbol} {params : List Symbol} {body : Expr}
    (hname : ∀ x ∈ name, (Token.symbol x).Occurs)
    (hparams : ∀ x ∈ params, (Token.symbol x).Occurs) (hbody : Written none body) :
    Written arity (.lambda name params body)

variable {arity : Option Nat} {e : Expr} {es : List Expr} {bs : List (Symbol × Expr)}
  {clauses : List (Clause Expr)} {cleanup : Option Expr}

/-- Every tree has a form. -/
theorem length_sources (es : List Expr) :
  (sources es).length = es.length
  := by
  induction es with
  | nil => rfl
  | cons e es ih => rw [sources, List.length_cons, List.length_cons, ih]

/-- Only a variable has the form of a symbol. -/
theorem eq_var_of_source {x : Symbol} (h : e.source = .symbol x) :
  e = .var x
  := by
  cases e with
  | var y =>
    cases h
    rfl
  | literal d =>
    cases d with
    | scalar s => cases s <;> cases h
    | list => cases h
    | vector => cases h
  | _ => cases h

/-! ### Spelling the form -/

open Source (SpellInTurn)

/-- A literal spells its form. -/
theorem spells_literal {d : Datum} (h : d.IsPrintable) :
  Spells (literalText d).toList [d.quotedForm]
  := by
  have hd := h.spells
  cases h with
  | @symbol x =>
    have hquote := hd.quote
    change Spells ("'" ++ x).toList _
    rw [String.toList_append]
    exact hquote
  | list =>
    have hquote := hd.quote
    rw [literalText, String.toList_append]
    exact hquote
  | _ => exact hd

/-- Some trees spell their forms. -/
theorem spells_texts (h : ∀ e ∈ es, Spells e.text.toList [e.source]) :
  SpellInTurn (texts es) (sources es)
  := by
  induction es with
  | nil => exact .nil
  | cons e es ih =>
    obtain ⟨he, hes⟩ := List.forall_mem_cons.1 h
    exact .cons he (ih hes)

/-- Some symbols spell themselves. -/
theorem spells_symbols {xs : List Symbol} (h : ∀ x ∈ xs, (Token.symbol x).Occurs) :
  SpellInTurn xs (xs.map .symbol)
  := by
  induction xs with
  | nil => exact .nil
  | cons x xs ih =>
    obtain ⟨hx, hxs⟩ := List.forall_mem_cons.1 h
    exact .cons hx.spells (ih hxs)

/-- Some bindings spell their forms. -/
theorem spells_bindings (hnames : ∀ b ∈ bs, (Token.symbol b.1).Occurs)
    (h : ∀ b ∈ bs, Spells b.2.text.toList [b.2.source]) :
  SpellInTurn (bindingTexts bs) (bindingSources bs)
  := by
  induction bs with
  | nil => exact .nil
  | cons b bs ih =>
    obtain ⟨hx, hnames⟩ := List.forall_mem_cons.1 hnames
    obtain ⟨he, hbs⟩ := List.forall_mem_cons.1 h
    have hb : SpellInTurn [b.1, b.2.text] [.symbol b.1, b.2.source] :=
      .cons hx.spells (.singleton he)
    exact .cons hb.spaced (ih hnames hbs)

/-- Some clauses spell their forms. -/
theorem spells_clauses
    (hselectors : ∀ c ∈ clauses, ∀ kind, c.selector = .kind kind → (Token.keyword kind).Occurs)
    (hnames : ∀ c ∈ clauses, (Token.symbol c.var).Occurs)
    (h : ∀ c ∈ clauses, Spells c.body.text.toList [c.body.source]) :
  SpellInTurn (clauseTexts clauses) (clauseSources clauses)
  := by
  have hcatch : (Token.symbol "catch").Occurs := .of_isPlainName (by decide +kernel)
  induction clauses with
  | nil => exact .nil
  | cons c cs ih =>
    obtain ⟨hselector, hselectors⟩ := List.forall_mem_cons.1 hselectors
    obtain ⟨hx, hnames⟩ := List.forall_mem_cons.1 hnames
    obtain ⟨he, hcs⟩ := List.forall_mem_cons.1 h
    have hrest := ih hselectors hnames hcs
    have hparts : SpellInTurn [c.var, c.body.text] [.symbol c.var, c.body.source] :=
      .cons hx.spells (.singleton he)
    obtain ⟨selector, x, e⟩ := c
    cases selector with
    | any => exact .cons (SpellInTurn.cons hcatch.spells hparts).list hrest
    | kind kind =>
      have hkind := (Datum.IsPrintable.keyword (hselector kind rfl)).spells
      exact .cons (SpellInTurn.cons hcatch.spells (.cons hkind hparts)).list hrest

/-- A cleanup spells its form. -/
theorem spells_cleanup (h : ∀ e ∈ cleanup, Spells e.text.toList [e.source]) :
  SpellInTurn (cleanupTexts cleanup) (cleanupSources cleanup)
  := by
  cases cleanup with
  | none => exact .nil
  | some e =>
    have hfinally : (Token.symbol "finally").Occurs := .of_isPlainName (by decide +kernel)
    exact .singleton (SpellInTurn.cons hfinally.spells (.singleton (h e rfl))).list

/-- The text of a form with bindings spells it. -/
theorem spells_bindingForm {head opening body : String} {texts : List String} {items : List Datum}
    {d : Datum} (hopening : opening = "(" ++ head ++ " [") (hhead : (Token.symbol head).Occurs)
    (hitems : SpellInTurn texts items) (hbody : Spells body.toList [d]) :
  Spells (opening ++ Text.spaced texts ++ "] " ++ body ++ ")").toList
    [.list [.symbol head, .vector items, d]]
  := by
  have htext : opening ++ Text.spaced texts ++ "] " ++ body ++ ")" =
      "(" ++ Text.spaced [head, "[" ++ Text.spaced texts ++ "]", body] ++ ")" := by
    have hspace : " [" = " " ++ "[" := by decide +kernel
    have hspace' : "] " = "]" ++ " " := by decide +kernel
    simp only [hopening, hspace, hspace', Text.spaced, String.intercalate_cons_cons,
      String.intercalate_singleton, String.append_assoc]
  rw [htext]
  exact (SpellInTurn.cons hhead.spells (.cons hitems.vector (.singleton hbody))).list

/-- The text of a written tree spells its form. -/
theorem Written.spells (h : Written arity e) :
  Spells e.text.toList [e.source]
  := by
  induction h with
  | literal h => exact spells_literal h
  | var h => exact h.spells
  | call _ _ ihf ihargs => exact (SpellInTurn.cons ihf (spells_texts ihargs)).list
  | cond _ _ _ ihtest ihyes ihno =>
    exact (SpellInTurn.cons (Source.occurs_name .ifElse).spells
      (.cons ihtest (.cons ihyes (.singleton ihno)))).list
  | @seq arity es _ _ _ ihbefore ihlast =>
    have hes : SeqOf (fun _ e => Spells e.text.toList [e.source]) arity es := ⟨ihbefore, ihlast⟩
    exact (SpellInTurn.cons (Source.occurs_name .sequence).spells
      (spells_texts hes.forall_mem)).list
  | bind _ hnames _ _ ihbs ihbody =>
    exact spells_bindingForm (by decide +kernel) (Source.occurs_name .bind)
      (spells_bindings hnames ihbs) ihbody
  | loop _ hnames _ _ ihbs ihbody =>
    exact spells_bindingForm (by decide +kernel) (Source.occurs_name .loop)
      (spells_bindings hnames ihbs) ihbody
  | recur _ ihargs =>
    exact (SpellInTurn.cons (Source.occurs_name .recur).spells (spells_texts ihargs)).list
  | protect _ hselectors hnames _ _ ihbody ihclauses ihcleanup =>
    exact (SpellInTurn.cons (Source.occurs_name .protect).spells (.cons ihbody
      ((spells_clauses hselectors hnames ihclauses).append (spells_cleanup ihcleanup)))).list
  | define hname _ ihe =>
    exact (SpellInTurn.cons (Source.occurs_name .define).spells
      (.cons hname.spells (.singleton ihe))).list
  | @lambda arity name params body hname hparams _ ihbody =>
    have hname : ∀ x ∈ name.toList, (Token.symbol x).Occurs :=
      fun x hx => hname x (Option.mem_toList.1 hx)
    have hrest := (spells_symbols hname).append
      (.cons (spells_symbols hparams).vector (.singleton ihbody))
    exact (SpellInTurn.cons (Source.occurs_name .function).spells hrest).list

/-- Only a variable is written like an interpreter line. -/
theorem Written.hasInterpreterLine_eq_false (h : Written arity e)
    (hline : ∀ x, e = .var x → Source.hasInterpreterLine x.toList = false) :
  Source.hasInterpreterLine e.text.toList = false
  := by
  cases h with
  | literal h =>
    have hd := h.hasInterpreterLine_eq_false
    rw [text]
    cases h with
    | @symbol x =>
      change Source.hasInterpreterLine ("'" ++ x).toList = false
      rw [String.toList_append]
      rfl
    | list =>
      rw [literalText, String.toList_append]
      rfl
    | _ => exact hd (by rintro _ ⟨⟩)
  | var => exact hline _ rfl
  | _ =>
    simp only [text, String.toList_append]
    rfl

/-! ### Compiling the form -/

/-- Trees that are not written like others: no variable has the name of a special form or of a
clause, and no literal is a vector. -/
structure Plain (e : Expr) : Prop where
  names (x : Symbol) : e.Mentions x → Compile.isReserved x = false
  literals (items : List Datum) : ¬ (literal (.vector items)).PartOf e

/-- The pieces of a plain tree are plain. -/
theorem Plain.piece {c : Expr} (h : e.Plain) (hc : c ∈ e.pieces) :
  c.Plain
  where
  names x hx := h.names x ((PartOf.piece hc (.refl c)).mentions hx)
  literals items hl := h.literals items (.piece hc hl)

end Expr

namespace Compile

open Skein.Expr (Written Plain sources bindingSources clauseSources cleanupSources)

variable {o : Options} {p : Position} {arity : Option Nat} {e : Expr} {es : List Expr}
  {bs : List (Symbol × Expr)} {cs : List (Clause Expr)} {cleanup : Option Expr}

/-- A list that starts with the name of a special form is one. -/
theorem form_special (s : SpecialForm) (args : List Datum) :
  form o p (.list (.symbol s.name :: args)) = special o p s args
  := by
  rw [Datum.symbol, form, SpecialForm.ofName?_name]

/-- A list that starts with the name of a function is a call of it. -/
theorem form_named {x : Symbol} (hx : SpecialForm.ofName? x = none) (args : List Datum) :
  form o p (.list (.symbol x :: args)) = return .call (.var x) (← operands o p args)
  := by
  rw [Datum.symbol, form, hx]

/-- A list that starts with no symbol is a call. -/
theorem form_call {d : Datum} (hd : ∀ x, d ≠ .symbol x) (args : List Datum) :
  form o p (.list (d :: args)) = do
    return .call (← form o p.operand d) (← operands o p args)
  := by
  rw [form]
  exact hd

/-- The forms of operands are compiled to them. -/
theorem operands_sources (h : ∀ e ∈ es, form o p.operand e.source = pure e) :
  operands o p (sources es) = pure es
  := by
  induction es with
  | nil => rw [sources, operands]
  | cons e es ih =>
    obtain ⟨he, hes⟩ := List.forall_mem_cons.1 h
    rw [sources, operands, he, ih hes, pure_bind, pure_bind]

/-- The forms of a body are compiled to it. -/
theorem statements_sources (hbefore : ∀ e ∈ es.dropLast, form o p.operand e.source = pure e)
    (hlast : ∀ e ∈ es.getLast?, form o p e.source = pure e) :
  statements o p (sources es) = pure es
  := by
  induction es with
  | nil => rw [sources, statements]
  | cons e es ih =>
    cases es with
    | nil => rw [sources, sources, statements, hlast e rfl, pure_bind]
    | cons e' es =>
      obtain ⟨he, hbefore⟩ := List.forall_mem_cons.1 hbefore
      have hes := ih hbefore hlast
      rw [sources] at hes ⊢
      rw [sources, statements, he, hes, pure_bind, pure_bind]
      exact List.cons_ne_nil _ _

/-- The form of a body that is one tree is compiled to the tree. -/
theorem body_source (h : form o p e.source = pure e) :
  body o p [e.source] = pure e
  := by
  rw [body, statements, h, pure_bind, pure_bind]
  rfl

/-- The names of bindings are symbols. -/
theorem checkPairs_sources (what : String) (bs : List (Symbol × Expr)) :
  checkPairs what (bindingSources bs) = pure ()
  := by
  have hlength : (bindingSources bs).length % 2 = 0 := by
    induction bs with
    | nil => rfl
    | cons b bs ih =>
      rw [bindingSources, List.length_cons, List.length_cons]
      omega
  have hnames : checkNames (bindingSources bs) = pure () := by
    clear hlength
    induction bs with
    | nil => rfl
    | cons b bs ih =>
      rw [bindingSources, checkNames, Datum.symbol, symbolOf, pure_bind]
      exact ih
  rw [checkPairs, if_pos hlength, hnames]

/-- The forms of bindings are compiled to them; when their names have to be distinct, they are. -/
theorem bindings_sources {distinct : Bool} {seen : List Symbol}
    (hdistinct : distinct = true → (bs.map (·.1)).Nodup ∧ ∀ b ∈ bs, b.1 ∉ seen)
    (h : ∀ b ∈ bs, form o p.operand b.2.source = pure b.2) :
  bindings o p distinct seen (bindingSources bs) = pure bs
  := by
  induction bs generalizing seen with
  | nil =>
    rw [bindingSources, bindings]
    rintro _ _ _ ⟨⟩
  | cons b bs ih =>
    obtain ⟨he, hbs⟩ := List.forall_mem_cons.1 h
    have hseen : ¬ (distinct && seen.contains b.1) = true := by
      rw [Bool.and_eq_true, List.contains_iff_mem]
      rintro ⟨htrue, hmem⟩
      exact (hdistinct htrue).2 b List.mem_cons_self hmem
    have hrest : bindings o p distinct (b.1 :: seen) (bindingSources bs) = pure bs := by
      refine ih (fun htrue => ?_) hbs
      obtain ⟨hnodup, hnew⟩ := hdistinct htrue
      obtain ⟨hb, hnodup⟩ := List.nodup_cons.1 hnodup
      refine ⟨hnodup, fun c hc hmem => ?_⟩
      rcases List.mem_cons.1 hmem with heq | hmem
      · exact hb (List.mem_map.2 ⟨c, hc, heq⟩)
      · exact hnew c (List.mem_cons_of_mem _ hc) hmem
    rw [bindingSources, Datum.symbol, bindings, if_neg hseen, he, pure_bind, hrest, pure_bind]

/-- The vector of parameters is compiled to them. -/
theorem paramsOf_symbols (params : List Symbol) :
  paramsOf (.vector (params.map .symbol)) = pure params
  := by
  rw [paramsOf]
  induction params with
  | nil => rfl
  | cons x params ih =>
    rw [List.map_cons, List.mapM_cons, Datum.symbol, symbolOf, pure_bind, ih, pure_bind]

/-- The form of a function literal without its name is compiled to it. -/
theorem function_source {name : Option Symbol} {params : List Symbol}
    (h : form o .top e.source = pure e) :
  function o name [.vector (params.map .symbol), e.source] = pure (.lambda name params e)
  := by
  rw [function, paramsOf_symbols, pure_bind, body_source h, pure_bind]

/-- The forms of clauses and of a cleanup are compiled to them. -/
theorem clauses_sources (h : ∀ c ∈ cs, form o .top c.body.source = pure c.body)
    (hcleanup : ∀ e ∈ cleanup, form o .top e.source = pure e) :
  clauses o false (clauseSources cs ++ cleanupSources cleanup) = pure (cs, cleanup)
  := by
  induction cs with
  | nil =>
    rw [clauseSources, List.nil_append]
    cases cleanup with
    | none => rw [cleanupSources, clauses]
    | some e =>
      rw [cleanupSources, Datum.symbol, clauses, if_neg Bool.false_ne_true,
        body_source (hcleanup e rfl), pure_bind, clauses, pure_bind]
  | cons c cs ih =>
    obtain ⟨he, hcs⟩ := List.forall_mem_cons.1 h
    have hrest := ih hcs
    have hclause : catchClause o c.selector [.symbol c.var, c.body.source] = pure c := by
      rw [catchClause, Datum.symbol, symbolOf, pure_bind, body_source he, pure_bind]
    obtain ⟨selector, x, e⟩ := c
    cases selector with
    | any =>
      have hkeyword : ∀ kind parts,
          [Datum.symbol x, e.source] ≠ .scalar (.keyword kind) :: parts := by rintro _ _ ⟨⟩
      rw [clauseSources, List.cons_append]
      conv_lhs => rw [Datum.symbol]
      rw [clauses, if_neg Bool.false_ne_true, hclause, pure_bind, hrest, pure_bind]
      exact hkeyword
    | kind kind =>
      rw [clauseSources, List.cons_append]
      conv_lhs => rw [Datum.symbol]
      rw [clauses, if_neg Bool.false_ne_true, hclause, pure_bind, hrest, pure_bind]

/-- A plain tree is not written like a clause. -/
theorem isClause_source (h : e.Plain) :
  isClause e.source = false
  := by
  unfold isClause
  split
  · rename_i head args heq
    cases e with
    | call f fargs =>
      rw [Expr.source] at heq
      obtain ⟨hf, -⟩ := List.cons.inj (Datum.list.inj heq)
      obtain rfl := Expr.eq_var_of_source hf
      have hhead := h.names head (.child List.mem_cons_self .var)
      simp only [isReserved, Bool.or_eq_false_iff, beq_eq_false_iff_ne] at hhead
      rw [Bool.or_eq_false_iff, decide_eq_false_iff_not, decide_eq_false_iff_not]
      exact ⟨hhead.1.2, hhead.2⟩
    | literal d =>
      cases d with
      | scalar s =>
        cases s with
        | symbol =>
          cases heq
          rfl
        | _ => cases heq
      | list =>
        cases heq
        rfl
      | vector => cases heq
    | var => cases heq
    | builtin => cases heq
    | _ =>
      cases heq
      rfl
  · rfl

/-- Clauses and a cleanup are written like clauses. -/
theorem isClause_clauses (cs : List (Clause Expr)) (cleanup : Option Expr) :
  ∀ d ∈ clauseSources cs ++ cleanupSources cleanup, isClause d = true
  := by
  have hclauses : ∀ d ∈ clauseSources cs, isClause d = true := by
    induction cs with
    | nil => exact fun _ h => absurd h List.not_mem_nil
    | cons c cs ih =>
      obtain ⟨selector, x, e⟩ := c
      cases selector <;> exact List.forall_mem_cons.2 ⟨rfl, ih⟩
  have hcleanup : ∀ d ∈ cleanupSources cleanup, isClause d = true := by
    cases cleanup with
    | none => exact fun _ h => absurd h List.not_mem_nil
    | some e => exact List.forall_mem_singleton.2 rfl
  exact List.forall_mem_append.2 ⟨hclauses, hcleanup⟩

/-- The form of a protected body and its clauses is compiled to it. -/
theorem protect_source (hplain : e.Plain) (he : form o .top e.source = pure e)
    (h : ∀ c ∈ cs, form o .top c.body.source = pure c.body)
    (hcleanup : ∀ e ∈ cleanup, form o .top e.source = pure e) :
  protect o (e.source :: (clauseSources cs ++ cleanupSources cleanup)) =
    pure (.protect e cs cleanup)
  := by
  have hbody : (!isClause e.source) = true := by rw [isClause_source hplain, Bool.not_false]
  have hclauses : ∀ d ∈ clauseSources cs ++ cleanupSources cleanup, ¬ (!isClause d) = true := by
    intro d hd
    rw [isClause_clauses cs cleanup d hd, Bool.not_true]
    exact Bool.false_ne_true
  have htake : (clauseSources cs ++ cleanupSources cleanup).takeWhile (!isClause ·) = [] :=
    List.takeWhile_eq_nil_iff.2 fun hlength => hclauses _ (List.getElem_mem hlength)
  have hdrop : (clauseSources cs ++ cleanupSources cleanup).dropWhile (!isClause ·) =
      clauseSources cs ++ cleanupSources cleanup :=
    List.dropWhile_eq_self_iff.2 fun hlength => hclauses _ (List.getElem_mem hlength)
  rw [protect, List.takeWhile_cons, List.dropWhile_cons, hbody, if_pos rfl, if_pos rfl, htake,
    hdrop, body_source he, pure_bind, clauses_sources h hcleanup, pure_bind]

/-- The form that a plain literal is written as is compiled to it. -/
theorem form_quotedForm {d : Datum} (h : ∀ items, d ≠ .vector items) :
  form o p d.quotedForm = pure (.literal d)
  := by
  cases d with
  | scalar s =>
    cases s with
    | symbol x =>
      refine (form_special .quote _).trans ?_
      rw [special]
    | _ =>
      change form o p (.scalar _) = _
      rw [form]
      rintro _ ⟨⟩
  | list items =>
    refine (form_special .quote _).trans ?_
    rw [special]
  | vector items => exact absurd rfl (h items)

/-- The form that the text of a written plain tree spells is compiled to the tree, where loops may
be re-entered as in the tree. -/
theorem form_source (h : Written arity e) (hplain : e.Plain) (hp : p.reentry? = arity) :
  form o p e.source = pure e
  := by
  induction h generalizing p with
  | literal h => exact form_quotedForm fun items heq => hplain.literals items (heq ▸ .refl _)
  | var => rw [Expr.source, Datum.symbol, form]
  | @call arity f args hf hargs ihf ihargs =>
    have hargs : operands o p (sources args) = pure args := operands_sources fun e he =>
      ihargs e he (hplain.piece (List.mem_cons_of_mem _ he)) rfl
    have hf : form o p.operand f.source = pure f := ihf (hplain.piece List.mem_cons_self) rfl
    rw [Expr.source]
    by_cases hsymbol : ∃ x, f.source = .symbol x
    · obtain ⟨x, hx⟩ := hsymbol
      obtain rfl := Expr.eq_var_of_source hx
      have hname := hplain.names x (.child List.mem_cons_self .var)
      simp only [isReserved, Bool.or_eq_false_iff, Option.isSome_eq_false_iff,
        Option.isNone_iff_eq_none] at hname
      rw [hx, form_named hname.1.1, hargs, pure_bind]
    · rw [form_call fun x hx => hsymbol ⟨x, hx⟩, hf, pure_bind, hargs, pure_bind]
  | @cond arity test yes no htest hyes hno ihtest ihyes ihno =>
    have htest := ihtest (hplain.piece List.mem_cons_self) (p := p.operand) rfl
    have hyes := ihyes (hplain.piece (List.mem_cons_of_mem _ List.mem_cons_self)) hp
    have hno := ihno (hplain.piece
      (List.mem_cons_of_mem _ (List.mem_cons_of_mem _ List.mem_cons_self))) hp
    rw [Expr.source]
    refine (form_special .ifElse _).trans ?_
    rw [special, htest, pure_bind, hyes, pure_bind, hno, pure_bind]
  | @seq arity es hlength _ _ ihbefore ihlast =>
    have hes : statements o p (sources es) = pure es := statements_sources
      (fun e he => ihbefore e he (hplain.piece (List.dropLast_subset _ he)) rfl)
      (fun e he => ihlast e he (hplain.piece (List.mem_of_mem_getLast? he)) hp)
    rw [Expr.source]
    refine (form_special .sequence _).trans ?_
    rw [special, body, hes, pure_bind]
    obtain ⟨e, es, rfl⟩ := List.exists_cons_of_length_pos (Nat.lt_of_succ_lt hlength)
    obtain ⟨e', es, rfl⟩ := List.exists_cons_of_length_pos (Nat.lt_of_succ_lt_succ hlength)
    rfl
  | @bind arity bs body hne _ _ _ ihbs ihbody =>
    have hbs : bindings o p false [] (bindingSources bs) = pure bs :=
      bindings_sources (fun h => absurd h Bool.false_ne_true) fun b hb => ihbs b hb
        (hplain.piece (List.mem_append_left _ (List.mem_map_of_mem hb))) rfl
    have hbody := ihbody (hplain.piece (List.mem_append_right _ List.mem_cons_self)) hp
    rw [Expr.source]
    refine (form_special .bind _).trans ?_
    rw [special, checkPairs_sources, pure_bind, hbs, pure_bind, body_source hbody, pure_bind,
      Expr.binding, if_neg fun h => hne (List.isEmpty_iff.1 h)]
  | @loop arity bs body hdistinct _ _ _ ihbs ihbody =>
    have hbs : bindings o p true [] (bindingSources bs) = pure bs :=
      bindings_sources (fun _ => ⟨hdistinct, fun _ _ => List.not_mem_nil⟩) fun b hb => ihbs b hb
        (hplain.piece (List.mem_append_left _ (List.mem_map_of_mem hb))) rfl
    have hbody := ihbody (hplain.piece (List.mem_append_right _ List.mem_cons_self))
      (p := .loopBody bs.length) rfl
    rw [Expr.source]
    refine (form_special .loop _).trans ?_
    rw [special, checkPairs_sources, pure_bind, hbs, pure_bind, body_source hbody, pure_bind]
  | @recur args _ ihargs =>
    have hargs : operands o p (sources args) = pure args := operands_sources fun e he =>
      ihargs e he (hplain.piece he) rfl
    rw [Expr.source]
    refine (form_special .recur _).trans ?_
    rw [special, hp]
    dsimp only
    rw [if_pos (Expr.length_sources args), hargs, pure_bind]
  | @protect arity body cs cleanup _ _ _ _ _ ihbody ihclauses ihcleanup =>
    have hbody := hplain.piece (c := body) (List.mem_append_left _ List.mem_cons_self)
    have hclauses : ∀ c ∈ cs, form o .top c.body.source = pure c.body := fun c hc =>
      ihclauses c hc (hplain.piece (List.mem_append_left _
        (List.mem_cons_of_mem _ (List.mem_map_of_mem hc)))) rfl
    have hcleanup : ∀ e ∈ cleanup, form o .top e.source = pure e := fun e he =>
      ihcleanup e he (hplain.piece (List.mem_append_right _ (Option.mem_toList.2 he))) rfl
    rw [Expr.source]
    refine (form_special .protect _).trans ?_
    rw [special]
    exact protect_source hbody (ihbody hbody rfl) hclauses hcleanup
  | @define arity x e _ _ ihe =>
    have he := ihe (hplain.piece List.mem_cons_self) (p := p.operand) rfl
    rw [Expr.source]
    refine (form_special .define _).trans ?_
    rw [special, Datum.symbol, symbolOf, pure_bind, he, pure_bind]
  | @lambda arity name params body _ _ _ ihbody =>
    have hbody := ihbody (hplain.piece List.mem_cons_self) (p := .top) rfl
    rw [Expr.source]
    refine (form_special .function _).trans ?_
    cases name with
    | none =>
      rw [special]
      · exact function_source hbody
      · rintro _ _ ⟨⟩
    | some name =>
      rw [Option.toList_some, List.map_singleton, List.singleton_append, Datum.symbol, special]
      exact function_source hbody

end Compile

end Skein
