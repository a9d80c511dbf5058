import Skein.Proofs.Reading
import Skein.Proofs.Written

/-!
# Expanded forms

A form that was read from source is compiled to a tree whose text is read to a form that is
compiled to the same tree.  The form may contain neither floats nor strings that are printed with
an escape by code point, and no form that is compiled to a tree with a function in it: a coroutine
or dynamic bindings.

The text of a vector that was quoted has no quote mark, so that it is compiled to a call.  The tree
must not hold such a vector.
-/

namespace Skein

open Source (Token IsPlainText)

/-! ### Data of a text -/

/-- A scalar is no float, and a string is printed with simple escapes only. -/
def Scalar.IsSimple : Scalar → Prop
  | .float _ => False
  | .string s => IsPlainText s.toList
  | _ => True

namespace Datum

/-- All scalars of a datum are simple. -/
inductive IsSimple : Datum → Prop where
  | scalar {s : Scalar} (h : s.IsSimple) : IsSimple (.scalar s)
  | list {items : List Datum} (h : ∀ d ∈ items, IsSimple d) : IsSimple (.list items)
  | vector {items : List Datum} (h : ∀ d ∈ items, IsSimple d) : IsSimple (.vector items)

/-- No list outside of quoted data starts like a coroutine or like dynamic bindings. -/
inductive IsDirect : Datum → Prop where
  | scalar (s : Scalar) : IsDirect (.scalar s)
  | quoted (args : List Datum) : IsDirect (.list (.symbol "quote" :: args))
  | list {items : List Datum}
    (hhead : ∀ x ∈ ["async", "coroutine", "binding"], items.head? ≠ some (.symbol x))
    (h : ∀ d ∈ items, IsDirect d) : IsDirect (.list items)
  | vector {items : List Datum} (h : ∀ d ∈ items, IsDirect d) : IsDirect (.vector items)

end Datum

namespace Source

variable {source : String} {t t' : SymbolTable} {d : Datum} {ds : List Datum}

/-- The datum of a token that the scanner finds is printable when it is simple. -/
theorem Token.Occurs.isPrintable {token : Token} (h : token.Occurs) (hd : token.datum? = some d)
    (hsimple : d.IsSimple) :
  d.IsPrintable
  := by
  cases token with
  | symbol name =>
    cases hd
    exact .symbol h
  | keyword name =>
    cases hd
    exact .keyword h
  | int n =>
    cases hd
    exact .int n
  | float x =>
    cases hd
    cases hsimple with
    | scalar h => exact h.elim
  | string s =>
    cases hd
    cases hsimple with
    | scalar h => exact .string h
  | bool b =>
    cases hd
    exact .bool b
  | nil =>
    cases hd
    exact .nil
  | opening | closing | quote => cases hd

/-- The tokens of a form among others. -/
theorem Forms.exists_form {ls : List Lexeme} (h : Forms ls ds) (hd : d ∈ ds) :
  ∃ ls', ls'.Sublist ls ∧ Form ls' d
  := by
  induction ds generalizing ls with
  | nil => cases hd
  | cons d' ds ih =>
    cases h with
    | @cons ls ls' _ _ h hs =>
      rcases List.mem_cons.1 hd with rfl | hd
      · exact ⟨ls, List.sublist_append_left ls ls', h⟩
      · obtain ⟨ls'', hls'', hform⟩ := ih hs hd
        exact ⟨ls'', hls''.trans (List.sublist_append_right ls ls'), hform⟩

/-- A simple form is printable. -/
theorem Form.isPrintable {ls : List Lexeme} {d : Datum} (h : Form ls d)
    (hls : ∀ l ∈ ls, l.token.Occurs) (hd : d.IsSimple) :
  d.IsPrintable
  := by
  cases h with
  | atom h => exact (List.forall_mem_singleton.1 hls).isPrintable h hd
  | @sequence b loc loc' ls items h =>
    have hitem : ∀ d ∈ items, d.IsSimple → d.IsPrintable := by
      intro d hmem hsimple
      obtain ⟨ls', hls', hform⟩ := h.exists_form hmem
      have hlength := hls'.length_le
      exact hform.isPrintable (fun l hl =>
        hls l (List.mem_cons_of_mem _ (List.mem_append_left _ (hls'.subset hl)))) hsimple
    cases b with
    | round =>
      cases hd with
      | list hitems => exact .list fun d hd => hitem d hd (hitems d hd)
    | square =>
      cases hd with
      | vector hitems => exact .vector fun d hd => hitem d hd (hitems d hd)
  | quote loc h =>
    cases hd with
    | list hitems =>
      obtain ⟨-, hitems⟩ := List.forall_mem_cons.1 hitems
      have hquoted := h.isPrintable (List.forall_mem_cons.1 hls).2
        (List.forall_mem_singleton.1 hitems)
      exact .list (List.forall_mem_cons.2
        ⟨.symbol (occurs_name .quote), List.forall_mem_singleton.2 hquoted⟩)
termination_by ls.length
decreasing_by
  all_goals
    subst_vars
    simp only [List.length_cons, List.length_append]
    omega

/-- The data of a text are the forms that its tokens are. -/
theorem forms_of_readAll (h : readAll source t = .ok ds t') :
  ∃ ls, Forms ls ds ∧ ∀ l ∈ ls, l.token.Occurs
  := by
  obtain ⟨ls, hls, hparse⟩ : ∃ ls, ls = (scan (String.ofList (dropInterpreterLine source.toList))).1 ∧
      parse [] ls t = .ok ds t' := by
    unfold readAll tokens at h
    split at h
    · rename_i ls heq
      exact ⟨ls, (congrArg Prod.fst heq).symm, h⟩
    · cases h
  have houtcome := (Opened.done .nil).outcome ls t
  rw [hparse] at houtcome
  cases houtcome with
  | ok hforms =>
    exact ⟨ls, hforms, fun l hl =>
      ⟨String.ofList (dropInterpreterLine source.toList), l, hls ▸ hl, rfl⟩⟩

/-- A simple datum that was read from a text is printable. -/
theorem isPrintable_of_readAll (h : readAll source t = .ok ds t') (hd : d ∈ ds)
    (hsimple : d.IsSimple) :
  d.IsPrintable
  := by
  obtain ⟨ls, hforms, hls⟩ := forms_of_readAll h
  obtain ⟨ls', hls', hform⟩ := hforms.exists_form hd
  exact hform.isPrintable (fun l hl => hls l (hls'.subset hl)) hsimple

end Source

/-! ### Compiling printable data -/

namespace Source

/-- A name with a hash sign behind it, and other characters behind that. -/
theorem isPlainName_append_hash {cs rest : List Char} (h : isPlainName cs = true)
    (hrest : rest.all isRunChar = true) :
  isPlainName (cs ++ '#' :: rest) = true
  := by
  cases cs with
  | nil => cases h
  | cons c cs =>
    simp only [isPlainName, Bool.and_eq_true, decide_eq_true_eq, Bool.not_eq_true'] at h
    obtain ⟨⟨⟨hrun, hcolon⟩, hnumber⟩, -⟩ := h
    have hrun' : (c :: (cs ++ '#' :: rest)).all isRunChar = true := by
      rw [← List.cons_append, List.all_append, hrun, List.all_cons, hrest]
      decide
    have hnumber' : startsNumber c (cs ++ '#' :: rest) = false := by
      cases cs with
      | nil =>
        rw [startsNumber, Bool.or_eq_false_iff] at hnumber ⊢
        refine ⟨hnumber.1, ?_⟩
        rw [List.nil_append, List.head?_cons, Option.any_some]
        exact Bool.and_false _
      | cons => exact hnumber
    have hother : c :: (cs ++ '#' :: rest) ∉
        [['n', 'i', 'l'], ['t', 'r', 'u', 'e'], ['f', 'a', 'l', 's', 'e']] := by
      intro hmem
      have hhash : '#' ∈ c :: (cs ++ '#' :: rest) :=
        List.mem_cons_of_mem _ (List.mem_append_right _ List.mem_cons_self)
      have hnone : ∀ word ∈ [['n', 'i', 'l'], ['t', 'r', 'u', 'e'], ['f', 'a', 'l', 's', 'e']],
          '#' ∉ word := by decide
      exact hnone _ hmem hhash
    simp only [List.cons_append, isPlainName, Bool.and_eq_true, decide_eq_true_eq,
      Bool.not_eq_true']
    exact ⟨⟨⟨hrun', hcolon⟩, hnumber'⟩, hother⟩

/-- A minted name is found by the scanner. -/
theorem occurs_spell {stem : String} (h : stem ∈ ["and", "or", "limit", "depth"]) (n : Nat) :
  (Token.symbol (SymbolTable.spell stem n)).Occurs
  := by
  have hdigits : (toString n).toList.all isRunChar = true := by
    rw [List.all_eq_true, Nat.toString_eq_repr, toList_repr]
    exact fun c hc => isRunChar_of_isDigit (IsInteger.all_isDigit n c hc)
  have hstem : isPlainName stem.toList = true := by
    simp only [List.mem_cons, List.not_mem_nil, or_false] at h
    rcases h with rfl | rfl | rfl | rfl <;> decide +kernel
  apply Token.Occurs.of_isPlainName
  rw [SymbolTable.spell, String.append_assoc, String.toList_append, String.toList_append]
  exact isPlainName_append_hash hstem hdigits

end Source

namespace Compile

/-- The printable data without coroutines and dynamic bindings. -/
def printable : Dialect where
  Form d := d.IsPrintable ∧ d.IsDirect
  Name x := (Token.symbol x).Occurs
  Selects kind := (Token.keyword kind).Occurs
  Literal d := d.IsPrintable
  Held _ := False
  literal h := h.1
  symbol h := by
    cases h.1 with
    | symbol h => exact h
  keyword h := by
    cases h.1 with
    | keyword h => exact h
  vector h := by
    obtain ⟨hprintable, hdirect⟩ := h
    cases hprintable with
    | vector hitems =>
      cases hdirect with
      | vector hitems' => exact fun d hd => ⟨hitems d hd, hitems' d hd⟩
  list h := by
    obtain ⟨hprintable, hdirect⟩ := h
    cases hprintable with
    | list hitems =>
      cases hdirect with
      | quoted args => exact .inr ⟨args, rfl, (List.forall_mem_cons.1 hitems).2⟩
      | list _ hitems' => exact .inl fun d hd => ⟨hitems d hd, hitems' d hd⟩
  minted h n _ := Source.occurs_spell h n
  known h := by
    simp only [List.mem_cons, List.not_mem_nil, or_false] at h
    apply Token.Occurs.of_isPlainName
    rcases h with rfl | rfl | rfl <;> decide +kernel
  constant h := by
    simp only [List.mem_cons, List.not_mem_nil, or_false] at h
    rcases h with rfl | rfl | rfl
    · exact .nil
    · exact .bool true
    · exact .int 0

/-- Printable data can be compiled on any table. -/
instance : printable.Unheld := ⟨fun _ h => h⟩

/-- Printable data have no coroutines and no dynamic bindings. -/
theorem not_allows_printable {s : SpecialForm} (hs : s.name ∈ ["async", "coroutine", "binding"]) :
  ¬ printable.Allows s
  := by
  rintro ⟨args, -, hdirect⟩
  generalize hd : Datum.list (.scalar (.symbol s.name) :: args) = d at hdirect
  cases hdirect with
  | scalar => cases hd
  | vector => cases hd
  | list hhead =>
    cases hd
    exact hhead s.name hs rfl
  | quoted =>
    have hquote := Scalar.symbol.inj (Datum.scalar.inj (List.cons.inj (Datum.list.inj hd)).1)
    rw [hquote] at hs
    exact absurd hs (by decide)

/-- Written trees are a kind of trees. -/
theorem written_kind {o : Options} :
  Kind printable o Expr.Written
  where
  literal := .literal
  var := .var
  call := .call
  cond := .cond
  seq hlength hes := .seq hlength hes.before hes.last
  bind hne hbs := .bind hne (fun b hb => (hbs b hb).1) fun b hb => (hbs b hb).2
  loop hdistinct hbs := .loop hdistinct (fun b hb => (hbs b hb).1) fun b hb => (hbs b hb).2
  recur := .recur
  protect hbody hclauses := .protect hbody (fun c hc => (hclauses c hc).1)
    (fun c hc => (hclauses c hc).2.1) fun c hc => (hclauses c hc).2.2
  define := .define
  lambda := .lambda
  dynamically h := absurd h (not_allows_printable (by decide))
  coroutine h := absurd h (not_or.2
    ⟨not_allows_printable (by decide), not_allows_printable (by decide)⟩)

end Compile

/-- The text of a quoted vector is read to the vector, and a vector is compiled to a call: no quote
mark is written that would tell the two apart. -/
theorem quoted_vector_becomes_call {items : List Datum} (h : (Datum.vector items).IsPrintable)
    (t : SymbolTable) :
  ∃ t', Source.readAll (Expr.literal (.vector items)).text t = .ok [.vector items] t' ∧
    ∀ o e t'', Compile.compile o (.vector items) t' = .ok e t'' →
      ∃ args, e = .call (.var "vector") args
  := by
  obtain ⟨names, -, hread⟩ := h.spells.readAll (h.hasInterpreterLine_eq_false (by rintro _ ⟨⟩))
  rw [String.ofList_toList] at hread
  refine ⟨_, hread t, fun o e t'' hcompile => ?_⟩
  rw [Compile.compile, Compile.form] at hcompile
  obtain ⟨args, t₁, -, hcompile⟩ := Compiling.bind_eq_ok_iff.1 hcompile
  obtain ⟨-, t₂, -, hcompile⟩ := Compiling.bind_eq_ok_iff.1 hcompile
  exact ⟨args, (Compiling.pure_eq_ok_iff.1 hcompile).1.symm⟩

/-- The text of a tree denotes the tree.  A form is read from a text that has no floats in the
form and only strings that are printed with simple escapes, and the form has no coroutine and no
dynamic bindings outside of quoted data.  When it is compiled to a tree in which no variable has
the name of a special form or of a clause, and no literal is a vector, and which is no variable that
is written like an interpreter line, the text of the tree is read to one form, and this form is
compiled to the same tree. -/
theorem printed_tree_denotes_tree {o : Compile.Options} {source : String}
    {t₀ t₁ t t' : SymbolTable} {ds : List Datum} {d : Datum} {e : Expr}
    (hread : Source.readAll source t₀ = .ok ds t₁) (hd : d ∈ ds) (hsimple : d.IsSimple)
    (hdirect : d.IsDirect) (hcompile : Compile.compile o d t = .ok e t')
    (hnames : ∀ x, e.Mentions x → Compile.isReserved x = false)
    (hliterals : ∀ items, ¬ (Expr.literal (.vector items)).PartOf e)
    (hline : ∀ x, e = .var x → Source.hasInterpreterLine x.toList = false) :
  ∃ d' t'', Source.readAll e.text t' = .ok [d'] t'' ∧ Compile.compile o d' t'' = .ok e t''
  := by
  have hprintable := Source.isPrintable_of_readAll hread hd hsimple
  have hwritten : e.Written none :=
    Compile.compile_kind Compile.written_kind ⟨hprintable, hdirect⟩ t e t' hcompile
  obtain ⟨names, -, hreadAll⟩ :=
    hwritten.spells.readAll (hwritten.hasInterpreterLine_eq_false hline)
  rw [String.ofList_toList] at hreadAll
  have hform : Compile.form o .top e.source = pure e :=
    Compile.form_source hwritten ⟨hnames, hliterals⟩ rfl
  exact ⟨e.source, _, hreadAll t', congrFun hform _⟩

/-- A quoted list that depends on a test. -/
def guardedList : Datum :=
  .list [.symbol "when", .symbol "a",
    .list [.symbol "quote", .list [.symbol "b", .scalar (.int 1)]]]

/-- The tree that the form is compiled to. -/
def guardedListTree : Expr :=
  .cond (.var "a") (.literal (.list [.symbol "b", .scalar (.int 1)])) .nil

/-- The text of the tree denotes the tree. -/
theorem guardedList_denotes_tree :
  ∃ t t' d' t'', Source.readAll "(when a (quote (b 1)))" .empty = .ok [guardedList] t ∧
    Compile.compile ⟨.default, false⟩ guardedList t = .ok guardedListTree t' ∧
    guardedListTree.text = "(if a '(b 1) nil)" ∧
    Source.readAll guardedListTree.text t' = .ok [d'] t'' ∧
    Compile.compile ⟨.default, false⟩ d' t'' = .ok guardedListTree t''
  := by
  have hsymbol : ∀ x ∈ ["when", "a", "quote", "b"], (Datum.symbol x).IsPrintable := by
    intro x hx
    refine .symbol (.of_isPlainName ?_)
    simp only [List.mem_cons, List.not_mem_nil, or_false] at hx
    rcases hx with rfl | rfl | rfl | rfl <;> decide +kernel
  have hprintable : guardedList.IsPrintable := by
    refine .list (List.forall_mem_cons.2 ⟨hsymbol _ (by decide), List.forall_mem_cons.2
      ⟨hsymbol _ (by decide), List.forall_mem_singleton.2 (.list (List.forall_mem_cons.2
        ⟨hsymbol _ (by decide), List.forall_mem_singleton.2 (.list ?_)⟩))⟩⟩)
    exact List.forall_mem_cons.2 ⟨hsymbol _ (by decide), List.forall_mem_singleton.2 (.int 1)⟩
  have hsimple : guardedList.IsSimple := by
    refine .list (List.forall_mem_cons.2 ⟨.scalar trivial, List.forall_mem_cons.2
      ⟨.scalar trivial, List.forall_mem_singleton.2 (.list (List.forall_mem_cons.2
        ⟨.scalar trivial, List.forall_mem_singleton.2 (.list ?_)⟩))⟩⟩)
    exact List.forall_mem_cons.2 ⟨.scalar trivial, List.forall_mem_singleton.2 (.scalar trivial)⟩
  have hdirect : guardedList.IsDirect := by
    refine .list (fun x hx h => ?_) (List.forall_mem_cons.2 ⟨.scalar _,
      List.forall_mem_cons.2 ⟨.scalar _, List.forall_mem_singleton.2 (.quoted _)⟩⟩)
    cases h
    exact absurd hx (by decide)
  have hform : Compile.form ⟨.default, false⟩ .top guardedList = pure guardedListTree := by
    refine (Compile.form_special .whenTrue _).trans ?_
    have hlist := Compile.body_source (e := .literal (.list [.symbol "b", .scalar (.int 1)]))
      (Compile.form_quotedForm (o := ⟨.default, false⟩) (p := .top) (by rintro _ ⟨⟩))
    rw [Compile.special, Datum.symbol, Compile.form, pure_bind]
    exact congrArg (· >>= _) hlist
  have hnames : ∀ x, guardedListTree.Mentions x → Compile.isReserved x = false :=
    Expr.firstMention?_inside_eq_none_iff.1 (by decide +kernel)
  have hliterals : ∀ items, ¬ (Expr.literal (.vector items)).PartOf guardedListTree := by
    rintro items (_ | ⟨hpiece, hpart⟩)
    simp only [guardedListTree, Expr.nil, Expr.pieces, Expr.children, List.mem_cons,
      List.not_mem_nil, or_false] at hpiece
    rcases hpiece with rfl | rfl | rfl <;> rcases hpart with _ | ⟨hnone, -⟩ <;> cases hnone
  obtain ⟨names, -, hread⟩ :=
    hprintable.spells.readAll (hprintable.hasInterpreterLine_eq_false (by rintro _ ⟨⟩))
  have htext : guardedList.text = "(when a (quote (b 1)))" := by decide +kernel
  rw [String.ofList_toList, htext] at hread
  obtain ⟨d', t'', hread', hcompile'⟩ := printed_tree_denotes_tree (hread .empty)
    List.mem_cons_self hsimple hdirect (congrFun hform _) hnames hliterals (by rintro _ ⟨⟩)
  exact ⟨_, _, d', t'', hread _, congrFun hform _, by decide +kernel, hread', hcompile'⟩

end Skein
