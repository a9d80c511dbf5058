import Skein.Proofs.Tidy

/-!
# Re-entries of loops

A tree is orderly when it re-enters loops only where a loop can be re-entered: in the tail of
the body of the loop, with as many values as the loop has bindings.  The value of a function
literal, of a protected body, of a clause and of a cleanup is not the value of a loop around
it, so that loop cannot be re-entered there.
-/

namespace Skein

/-- A tree re-enters loops only where it may, where a re-entry in the tail of the tree has to
give `arity` values, or is not allowed. -/
inductive Expr.Orderly : (arity : Option Nat) → Expr → Prop where
  | literal {arity : Option Nat} (d : Datum) : Orderly arity (.literal d)
  | builtin {arity : Option Nat} (b : Builtin) : Orderly arity (.builtin b)
  | var {arity : Option Nat} (x : Symbol) : Orderly arity (.var x)
  | call {arity : Option Nat} {f : Expr} {args : List Expr} (hf : Orderly none f)
    (hargs : ∀ a ∈ args, Orderly none a) : Orderly arity (.call f args)
  | cond {arity : Option Nat} {test yes no : Expr} (htest : Orderly none test)
    (hyes : Orderly arity yes) (hno : Orderly arity no) : Orderly arity (.cond test yes no)
  | seq {arity : Option Nat} {es : List Expr} (hbefore : ∀ e ∈ es.dropLast, Orderly none e)
    (hlast : ∀ e ∈ es.getLast?, Orderly arity e) : Orderly arity (.seq es)
  | bind {arity : Option Nat} {bs : List (Symbol × Expr)} {body : Expr}
    (hbs : ∀ b ∈ bs, Orderly none b.2) (hbody : Orderly arity body) :
    Orderly arity (.bind bs body)
  | loop {arity : Option Nat} {bs : List (Symbol × Expr)} {body : Expr}
    (hbs : ∀ b ∈ bs, Orderly none b.2) (hbody : Orderly (some bs.length) body) :
    Orderly arity (.loop bs body)
  | recur {args : List Expr} (hargs : ∀ a ∈ args, Orderly none a) :
    Orderly (some args.length) (.recur args)
  | protect {arity : Option Nat} {body : Expr} {clauses : List (Clause Expr)}
    {cleanup : Option Expr} (hbody : Orderly none body)
    (hclauses : ∀ c ∈ clauses, Orderly none c.body)
    (hcleanup : ∀ e ∈ cleanup, Orderly none e) : Orderly arity (.protect body clauses cleanup)
  | define {arity : Option Nat} {x : Symbol} {e : Expr} (he : Orderly none e) :
    Orderly arity (.define x e)
  | lambda {arity : Option Nat} {name : Option Symbol} {params : List Symbol} {body : Expr}
    (hbody : Orderly none body) : Orderly arity (.lambda name params body)

namespace Expr

variable {arity : Option Nat} {e : Expr}

/-- The children of an orderly tree are orderly. -/
theorem Orderly.children (h : e.Orderly arity) :
  ∀ c ∈ e.children, ∃ n, c.Orderly n
  := by
  cases h with
  | literal | builtin | var | lambda => exact fun _ h => absurd h List.not_mem_nil
  | call hf hargs => exact List.forall_mem_cons.2 ⟨⟨none, hf⟩, fun a ha => ⟨none, hargs a ha⟩⟩
  | cond htest hyes hno =>
    exact List.forall_mem_cons.2 ⟨⟨none, htest⟩, List.forall_mem_cons.2
      ⟨⟨arity, hyes⟩, List.forall_mem_singleton.2 ⟨arity, hno⟩⟩⟩
  | @seq _ es hbefore hlast =>
    intro c hc
    rcases List.eq_nil_or_concat' es with rfl | ⟨before, last, rfl⟩
    · exact absurd hc List.not_mem_nil
    · rw [List.dropLast_concat] at hbefore
      rcases List.mem_append.1 hc with hc | hc
      · exact ⟨none, hbefore c hc⟩
      · obtain rfl := List.mem_singleton.1 hc
        exact ⟨arity, hlast c List.getLast?_concat⟩
  | bind hbs hbody =>
    exact forall_children_bind (P := fun c => ∃ n, c.Orderly n) (fun b hb => ⟨none, hbs b hb⟩)
      ⟨arity, hbody⟩
  | loop hbs hbody =>
    exact forall_children_bind (P := fun c => ∃ n, c.Orderly n) (fun b hb => ⟨none, hbs b hb⟩)
      ⟨_, hbody⟩
  | recur hargs => exact fun a ha => ⟨none, hargs a ha⟩
  | protect hbody hclauses hcleanup =>
    exact forall_children_protect (P := fun c => ∃ n, c.Orderly n) ⟨none, hbody⟩
      (fun c hc => ⟨none, hclauses c hc⟩) fun e he => ⟨none, hcleanup e he⟩
  | define he => exact List.forall_mem_singleton.2 ⟨none, he⟩

/-- A tree that re-enters no loop around it is orderly anywhere. -/
theorem Orderly.of_not_recurs (h : e.Orderly arity) (hrecurs : e.recurs = false)
    (n : Option Nat) :
  e.Orderly n
  := by
  have hchildren : ∀ {e c : Expr}, e.recurs = false → e.isLoop = false → c ∈ e.children →
      c.recurs = false := by
    intro e c he hloop hc
    rw [recurs_eq, hloop, Bool.not_false, Bool.true_and, Bool.or_eq_false_iff,
      List.any_eq_false] at he
    exact Bool.eq_false_iff.2 (he.2 c hc)
  induction h with
  | literal d => exact .literal d
  | builtin b => exact .builtin b
  | var x => exact .var x
  | call hf hargs => exact .call hf hargs
  | cond htest _ _ _ ihyes ihno =>
    have hyes := hchildren hrecurs rfl (List.mem_cons_of_mem _ List.mem_cons_self)
    have hno := hchildren hrecurs rfl
      (List.mem_cons_of_mem _ (List.mem_cons_of_mem _ List.mem_cons_self))
    exact .cond htest (ihyes hyes) (ihno hno)
  | @seq _ es hbefore _ _ ihlast =>
    refine .seq hbefore fun e he => ihlast e he (hchildren hrecurs rfl ?_)
    exact List.mem_of_getLast? he
  | bind hbs _ _ ihbody =>
    refine .bind hbs (ihbody (hchildren hrecurs rfl ?_))
    exact List.mem_append_right _ List.mem_cons_self
  | loop hbs hbody => exact .loop hbs hbody
  | recur =>
    rw [recurs_eq] at hrecurs
    cases hrecurs
  | protect hbody hclauses hcleanup => exact .protect hbody hclauses hcleanup
  | define he => exact .define he
  | lambda hbody => exact .lambda hbody

/-! ### Trees that are put together -/

/-- Handing a value to a continuation. -/
theorem Orderly.send {k : Symbol} (h : e.Orderly none) :
  (send k e).Orderly arity
  := .call (.var k) (List.forall_mem_singleton.2 h)

/-- Bindings around a body. -/
theorem Orderly.binding {bs : List (Symbol × Expr)} {body : Expr}
    (hbs : ∀ b ∈ bs, b.2.Orderly none) (hbody : body.Orderly arity) :
  (binding bs body).Orderly arity
  := by
  rw [Expr.binding]
  split
  · exact hbody
  · exact .bind hbs hbody

/-- A sequence, which may be a single tree. -/
theorem Orderly.block {es : List Expr} (h : SeqOf Orderly arity es) :
  (block es).Orderly arity
  := by
  unfold Expr.block
  split
  · exact .literal _
  · exact h.last _ rfl
  · exact .seq h.before h.last

/-- A sequence of trees in no tail. -/
theorem Orderly.blockAll {es : List Expr} (h : ∀ e ∈ es, e.Orderly none) :
  (Expr.block es).Orderly none
  := .block ⟨fun e he => h e (List.dropLast_subset _ he), fun e he => h e (List.mem_of_getLast? he)⟩

end Expr

end Skein
