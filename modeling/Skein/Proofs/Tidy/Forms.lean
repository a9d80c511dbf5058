import Skein.Proofs.Tidy.Lowering

/-!
# Forms are compiled to tidy trees

Only the form that binds names is compiled to a tree that enters a frame, and it leaves it in
any case.
-/

namespace Skein

namespace Compile

open Compiling

/-- A tree without children that is no function. -/
theorem tidy_leaf {e : Expr} (hm : e.movesFrames = false) (hbody : e.functionBody? = none)
    (h : e.children = []) :
  e.Tidy
  := .of_children hm hbody fun c hc => by
    rw [h] at hc
    exact absurd hc List.not_mem_nil

/-- Dynamic bindings around a body are left in any case. -/
theorem tidy_dynamically (depth : Symbol) {bs : List (Symbol × Expr)} {body : Expr}
    (hbs : ∀ b ∈ bs, b.2.Tidy) (hbody : body.Tidy) :
  (dynamically depth bs body).Tidy
  := by
  have hargs : ∀ a ∈ bs.flatMap fun b => [.literal (.symbol b.1), b.2], a.Tidy := by
    intro a ha
    obtain ⟨b, hb, ha⟩ := List.mem_flatMap.1 ha
    rcases List.mem_cons.1 ha with rfl | ha
    · exact tidy_leaf rfl rfl rfl
    · obtain rfl := List.mem_singleton.1 ha
      exact hbs b hb
  have hpop : (Expr.call (.builtin .popBindings) [.var depth]).isFramed = true :=
    Expr.isFramed_call_builtin (List.forall_mem_singleton.2 (Expr.isFramed_var depth))
  have hprotect : (Expr.protect body []
      (some (.call (.builtin .popBindings) [.var depth]))).isFramed = true := by
    refine Expr.isFramed_of_children rfl rfl ?_
    refine Expr.forall_children_protect (P := (·.isFramed = true)) hbody.framed nofun ?_
    rintro _ ⟨⟩
    exact hpop
  constructor
  · apply Expr.isClosed_iff.2
    refine .inl ⟨_, body, ?_, fun a ha => (hargs a ha).closed, hbody.closed⟩
    rw [dynamically, Expr.binding, if_neg (by simp), Expr.frame?, if_pos rfl]
  · exact Expr.isFramed_binding (List.forall_mem_singleton.2
      (Expr.isFramed_call_builtin fun a ha => (hargs a ha).framed)) hprotect

variable {o : Options}

/-- Tidy trees are a kind of trees. -/
theorem tidy_kind (ho : o.flavors.Framed) :
  Kind .all o fun _ e => e.Tidy
  where
  literal _ := tidy_leaf rfl rfl rfl
  var _ := tidy_leaf rfl rfl rfl
  call hf hargs := .of_children rfl rfl (List.forall_mem_cons.2 ⟨hf, hargs⟩)
  cond htest hyes hno := .of_children rfl rfl (List.forall_mem_cons.2
    ⟨htest, List.forall_mem_cons.2 ⟨hyes, List.forall_mem_singleton.2 hno⟩⟩)
  seq _ hes := .of_children rfl rfl hes.forall_mem
  bind _ hbs hbody := .of_children rfl rfl
    (Expr.forall_children_bind (fun b hb => (hbs b hb).2) hbody)
  loop _ hbs hbody := .of_children rfl rfl
    (Expr.forall_children_bind (fun b hb => (hbs b hb).2) hbody)
  recur hargs := .of_children rfl rfl hargs
  protect hbody hclauses hcleanup := .of_children rfl rfl
    (Expr.forall_children_protect hbody (fun c hc => (hclauses c hc).2.2) hcleanup)
  define _ he := .of_children rfl rfl (List.forall_mem_singleton.2 he)
  lambda _ _ hbody := .lambda hbody.framed
  dynamically {_ depth _ _} _ _ hbs hbody :=
    tidy_dynamically depth (fun b hb => (hbs b hb).2) hbody
  coroutine _ htable hbody := Coroutine.compile_tidy (ho _ _ htable) hbody.framed

/-- Every form is compiled to a tidy tree. -/
theorem compile_tidy (ho : o.flavors.Framed) (d : Datum) :
  Makes Expr.Tidy (Compile.compile o d)
  := compile_kind (tidy_kind ho) trivial

end Compile

end Skein
