import Skein.Proofs.Simulation

/-!
# Trees that are kept

A tree that need not be lowered is kept as it is, and in a direct run it is evaluated at
once.  Of trees that are evaluated in turn, those up to the last one that suspends are
reduced to trees that give the same value wherever they stand; the others are kept for
what is done with the values, and end alike in the scope of the code.
-/

namespace Skein

open Coroutine

variable {own : Nat} {G : Aim} {U : Symbol → Prop} {W W' : World}
  {manner : Manner} {inner : Bool}

/-! ### Which trees are lowered -/

/-- What the lowering tests is whether a tree has to be lowered. -/
theorem needsLowering_iff {s : Scope} (hs : s.head.isSome = inner) (e : Expr) :
  needsLowering Table.default s e = true ↔ e.Needs inner
  := by
  rw [needsLowering, hs, Expr.Needs]

/-- A tree that passes the negated test need not be lowered. -/
theorem not_needs_of_not {s : Scope} (hs : s.head.isSome = inner) {e : Expr}
    (h : (!needsLowering Table.default s e) = true) :
  ¬ e.Needs inner
  := by
  rw [← needsLowering_iff hs, Bool.not_eq_true, ← Bool.not_eq_true']
  exact h

/-- A tree that does not pass the negated test has to be lowered. -/
theorem needs_of_not_not {s : Scope} (hs : s.head.isSome = inner) {e : Expr}
    (h : ¬ (!needsLowering Table.default s e) = true) :
  e.Needs inner
  := by
  rw [← needsLowering_iff hs, ← Bool.not_eq_false, ← Bool.not_eq_true']
  exact h

/-- A tree that need not be lowered is handed over as it is. -/
theorem handOver_of_not_needs {s : Scope} (hs : s.head.isSome = inner) {e : Expr}
    (h : ¬ e.Needs inner) :
  handOver Table.default s e = return .send s.success e
  := by
  rw [handOver, if_neg (mt (needsLowering_iff hs e).1 h)]

/-- A tree that has to be lowered is lowered. -/
theorem handOver_of_needs {s : Scope} (hs : s.head.isSome = inner) {e : Expr}
    (h : e.Needs inner) :
  handOver Table.default s e = lower Table.default s e
  := by
  rw [handOver, if_pos ((needsLowering_iff hs e).2 h)]

/-- The parts of a tree of a body can stand in a body, but for the operator of a call of
`await`. -/
theorem Expr.InBody.child {tail : Bool} {e c : Expr} (h : e.InBody U tail)
    (hn : e.reaches Table.default.has = false) (hc : c ∈ e.children) :
  ∃ tail, c.InBody U tail
  := by
  cases h with
  | literal d => cases hc
  | builtin b => cases hc
  | var hx => cases hc
  | lambda h => cases hc
  | call hf hargs =>
    rcases List.mem_cons.1 hc with rfl | hc
    · exact ⟨false, hf⟩
    · exact ⟨false, hargs c hc⟩
  | await hargs =>
    rw [Expr.reaches_eq] at hn
    cases hn
  | cond htest hyes hno =>
    simp only [children, List.mem_cons, List.not_mem_nil, or_false] at hc
    rcases hc with rfl | rfl | rfl
    · exact ⟨false, htest⟩
    · exact ⟨tail, hyes⟩
    · exact ⟨tail, hno⟩
  | seq hes hlast => exact Expr.InBody.of_seq hes hlast c hc
  | bind hx hbs hbody =>
    rcases List.mem_append.1 hc with hc | hc
    · obtain ⟨b, hb, rfl⟩ := List.mem_map.1 hc
      exact ⟨false, hbs b hb⟩
    · obtain rfl := List.mem_singleton.1 hc
      exact ⟨tail, hbody⟩
  | loop hx hbs hbody =>
    rcases List.mem_append.1 hc with hc | hc
    · obtain ⟨b, hb, rfl⟩ := List.mem_map.1 hc
      exact ⟨false, hbs b hb⟩
    · obtain rfl := List.mem_singleton.1 hc
      exact ⟨true, hbody⟩
  | recur hes => exact ⟨false, hes c hc⟩
  | protect hbody hx hclauses hcleanup =>
    rcases List.mem_append.1 hc with hc | hc
    · rcases List.mem_cons.1 hc with rfl | hc
      · exact ⟨false, hbody⟩
      · obtain ⟨clause, hclause, rfl⟩ := List.mem_map.1 hc
        exact ⟨false, hclauses clause hclause⟩
    · exact ⟨false, hcleanup c (Option.mem_toList.1 hc)⟩
  | define x he =>
    obtain rfl := List.mem_singleton.1 hc
    exact ⟨false, he⟩

/-- A tree of a body that cannot suspend mentions only names of the body. -/
theorem Expr.InBody.mentions {tail : Bool} {e : Expr} {y : Symbol} (h : e.InBody U tail)
    (hn : e.reaches Table.default.has = false) (hy : e.Mentions y) :
  U y
  := by
  induction hy generalizing tail with
  | var =>
    cases h with
    | var hx => exact hx
  | @child c e hc hy ih =>
    obtain ⟨tail, hchild⟩ := h.child hn hc
    rw [Expr.reaches_eq, Bool.or_eq_false_iff, List.any_eq_false] at hn
    exact ih hchild (Bool.eq_false_iff.2 (hn.2 c hc))
  | body hy =>
    cases h with
    | lambda h => exact h y hy

/-- A tree that need not be lowered cannot suspend. -/
theorem Expr.reaches_of_not_needs {e : Expr} (h : ¬ e.Needs inner) :
  e.reaches Table.default.has = false
  := by
  rw [Expr.Needs, Bool.not_eq_true, Bool.or_eq_false_iff] at h
  exact h.1

/-- A tree has to be lowered when a child of it can suspend. -/
theorem Expr.needs_of_child {c e : Expr} (hc : c ∈ e.children)
    (h : c.reaches Table.default.has = true) :
  e.Needs inner
  := by
  have hreaches : e.reaches Table.default.has = true := by
    rw [Expr.reaches_eq, Bool.or_eq_true, List.any_eq_true]
    exact .inr ⟨c, hc, h⟩
  rw [Expr.Needs, hreaches, Bool.true_or]

/-- A direct run of a tree that need not be lowered is an evaluation. -/
theorem Direct.of_not_needs {e : Expr} {env : Env} {last last' : Option (Context Value)}
    {m m' : Machine} {r : Ended Yield} (h : Direct manner inner (.tree e) env last m r last' m')
    (hn : ¬ e.Needs inner) :
  last' = last ∧ ∃ s : Ended Value, r = s.map .value ∧ e.Ends env m s m'
  := by
  cases h with
  | plain _ h _ => exact ⟨rfl, _, rfl, h⟩
  | _ => contradiction

/-- A tree that gives a value and need not be lowered. -/
theorem Direct.ends_of_not_needs {e : Expr} {env : Env} {last last' : Option (Context Value)}
    {m m' : Machine} {v : Value}
    (h : Direct manner inner (.tree e) env last m (.ok (.value v)) last' m')
    (hn : ¬ e.Needs inner) :
  last' = last ∧ e.Ends env m (.ok v) m'
  := by
  obtain ⟨hlast, s, hr, h⟩ := h.of_not_needs hn
  cases s <;> cases hr
  exact ⟨hlast, h⟩

/-- A tree that raises a condition and need not be lowered. -/
theorem Direct.raises_of_not_needs {e : Expr} {env : Env} {last last' : Option (Context Value)}
    {m m' : Machine} {d : Condition Value}
    (h : Direct manner inner (.tree e) env last m (.error d) last' m') (hn : ¬ e.Needs inner) :
  last' = last ∧ e.Ends env m (.error d) m'
  := by
  obtain ⟨hlast, s, hr, h⟩ := h.of_not_needs hn
  cases s <;> cases hr
  exact ⟨hlast, h⟩

/-- A direct run of trees that need not be lowered is an evaluation. -/
theorem Direct.allEnd {es : List Expr} {env : Env} {last last' : Option (Context Value)}
    {m m' : Machine} {r : Ended Yield} (h : Direct manner inner (.trees es) env last m r last' m')
    (hn : ∀ e ∈ es, ¬ e.Needs inner) :
  last' = last ∧ ∃ s : Ended (List Value), r = s.map .values ∧ Expr.AllEnd env es m s m'
  := by
  generalize ht : Task.trees es = task at h
  induction h generalizing es with
  | treesNil =>
    cases ht
    exact ⟨rfl, .ok [], rfl, .nil⟩
  | treesCons h _ _ ihs =>
    cases ht
    have hn := List.forall_mem_cons.1 hn
    obtain ⟨rfl, hends⟩ := h.ends_of_not_needs hn.1
    obtain ⟨rfl, s, hr, hs⟩ := ihs hn.2 rfl
    cases s <;> cases hr
    exact ⟨rfl, .ok _, rfl, .cons hends hs⟩
  | treesHead h =>
    cases ht
    have hn := List.forall_mem_cons.1 hn
    obtain ⟨rfl, hends⟩ := h.raises_of_not_needs hn.1
    exact ⟨rfl, .error _, rfl, .head hends⟩
  | treesTail h _ _ ihs =>
    cases ht
    have hn := List.forall_mem_cons.1 hn
    obtain ⟨rfl, hends⟩ := h.ends_of_not_needs hn.1
    obtain ⟨rfl, s, hr, hs⟩ := ihs hn.2 rfl
    cases s <;> cases hr
    exact ⟨rfl, .error _, rfl, .tail hends hs⟩
  | _ => cases ht

/-- Evaluating a tree ends in at most one way. -/
theorem Expr.Ends.unique {e : Expr} {env : Env} {m m₁ m₂ : Machine} {r s : Ended Value}
    (h : e.Ends env m r m₁) (h' : e.Ends env m s m₂) :
  r = s ∧ m₁ = m₂
  := (Expr.Ends.eval h).gives_unique (Expr.Ends.eval h')

/-! ### Trees with a fixed value -/

/-- A tree that has a value alike to `v` wherever it is evaluated in the scope. -/
inductive Fixed (W : World) (t : SymbolTable) (env : Env) : Value → Expr → Prop where
  | literal (d : Datum) : Fixed W t env (.ofDatum d) (.literal d)
  | builtin (b : Builtin) : Fixed W t env (.native (.builtin b)) (.builtin b)
  | var {y : Symbol} {v v' : Value} (hy : y ∈ t.names) (h : List.lookup y env = some v')
    (hv : Value.Alike W v v') : Fixed W t env v (.var y)

namespace Fixed

variable {t t' : SymbolTable} {env : Env} {v : Value} {e : Expr}

/-- The value of a tree with a fixed value. -/
theorem ends (h : Fixed W t env v e) :
  ∃ v', Value.Alike W v v' ∧ ∀ m, e.Ends env m (.ok v') m
  := by
  cases h with
  | literal d => exact ⟨_, .ofDatum W d, fun m => Expr.ends_literal d⟩
  | builtin b => exact ⟨_, .builtin b, fun m => Expr.ends_builtin b⟩
  | var _ h hv => exact ⟨_, hv, fun m => Expr.ends_var h⟩

/-- Values stay fixed when more is known. -/
theorem mono (hW : W ≤ W') (h : Fixed W t env v e) :
  Fixed W' t env v e
  := by
  cases h with
  | literal d => exact .literal d
  | builtin b => exact .builtin b
  | var hy h hv => exact .var hy h (hv.mono hW)

/-- Values stay fixed when more names have been minted. -/
theorem within (ht : t.Within t') (h : Fixed W t env v e) :
  Fixed W t' env v e
  := by
  cases h with
  | literal d => exact .literal d
  | builtin b => exact .builtin b
  | var hy h hv => exact .var (ht _ hy) h hv

/-- Values stay fixed inside a binding of a name that is minted later. -/
theorem hide {y : Symbol} (hy : y ∉ t.names) (u : Value) (h : Fixed W t env v e) :
  Fixed W t ((y, u) :: env) v e
  := by
  cases h with
  | literal d => exact .literal d
  | builtin b => exact .builtin b
  | @var z _ v' hz h hv =>
    refine .var hz ((lookup_cons_of_ne ?_ u env).trans h) hv
    rintro rfl
    exact hy hz

end Fixed

/-- A tree that the lowering takes to be fixed has a fixed value. -/
theorem Fixed.of_isFixed {t : SymbolTable} {s : Scope} {env env' : Env} {x : Exits} {e : Expr}
    {m m₁ : Machine} {r : Ended Value} (hfixed : isFixed s e = true)
    (hfit : Fits U W t s env env' x) (hU : ∀ y, e.Mentions y → U y) (h : e.Ends env m r m₁) :
  ∃ v, r = .ok v ∧ m₁ = m ∧ Fixed W t env' v e
  := by
  cases e with
  | literal d =>
    obtain ⟨rfl, rfl⟩ := h.unique (Expr.ends_literal d)
    exact ⟨_, rfl, rfl, .literal d⟩
  | builtin b =>
    obtain ⟨rfl, rfl⟩ := h.unique (Expr.ends_builtin b)
    exact ⟨_, rfl, rfl, .builtin b⟩
  | var y =>
    have hy : U y := hU y .var
    have hbound := hfit.bound y (List.contains_iff_mem.1 hfixed)
    obtain ⟨v', hv'⟩ := Option.isSome_iff_exists.1 hbound
    have hrel := hfit.alike y hy
    rw [hv'] at hrel
    generalize hlookup : List.lookup y env = o at hrel
    obtain ⟨hv⟩ := hrel
    obtain ⟨rfl, rfl⟩ := h.unique (Expr.ends_var hlookup)
    exact ⟨_, rfl, rfl, .var (hfit.known y hy) hv' hv⟩
  | _ => cases hfixed

/-- Trees that are kept for what is done with their values: some with fixed values, and
trees of the body, which end on a machine of the direct run. -/
inductive Kept (U : Symbol → Prop) (W : World) (t : SymbolTable) (env env' : Env) :
    List Expr → Machine → Ended (List Value) → Machine → Prop where
  | nil {m : Machine} : Kept U W t env env' [] m (.ok []) m
  | fixed {e : Expr} {es : List Expr} {v : Value} {m m₁ : Machine} {r : Ended (List Value)}
    (h : Fixed W t env' v e) (hs : Kept U W t env env' es m r m₁) :
    Kept U W t env env' (e :: es) m (r.map (v :: ·)) m₁
  | cons {e : Expr} {es : List Expr} {v : Value} {m m₁ m₂ : Machine} {r : Ended (List Value)}
    (hU : ∀ y, e.Mentions y → U y) (h : e.Ends env m (.ok v) m₁)
    (hs : Kept U W t env env' es m₁ r m₂) : Kept U W t env env' (e :: es) m (r.map (v :: ·)) m₂
  | head {e : Expr} {es : List Expr} {d : Condition Value} {m m₁ : Machine}
    (hU : ∀ y, e.Mentions y → U y) (h : e.Ends env m (.error d) m₁) :
    Kept U W t env env' (e :: es) m (.error d) m₁

namespace Kept

variable {t : SymbolTable} {env env' : Env} {es : List Expr} {m m₁ m' : Machine}
  {r : Ended (List Value)}

/-- Trees are kept when more is known. -/
theorem mono (hW : W ≤ W') (h : Kept U W t env env' es m r m₁) :
  Kept U W' t env env' es m r m₁
  := by
  induction h with
  | nil => exact .nil
  | fixed h _ ih => exact .fixed (h.mono hW) ih
  | cons hU h _ ih => exact .cons hU h ih
  | head hU h => exact .head hU h

/-- Trees are kept inside a binding of a name that is minted later. -/
theorem hide {y : Symbol} (hy : y ∉ t.names) (u : Value) (h : Kept U W t env env' es m r m₁) :
  Kept U W t env ((y, u) :: env') es m r m₁
  := by
  induction h with
  | nil => exact .nil
  | fixed h _ ih => exact .fixed (h.hide hy u) ih
  | cons hU h _ ih => exact .cons hU h ih
  | head hU h => exact .head hU h

/-- Trees are kept when more names have been minted. -/
theorem within {t' : SymbolTable} (ht : t.Within t') (h : Kept U W t env env' es m r m₁) :
  Kept U W t' env env' es m r m₁
  := by
  induction h with
  | nil => exact .nil
  | fixed h _ ih => exact .fixed (h.within ht) ih
  | cons hU h _ ih => exact .cons hU h ih
  | head hU h => exact .head hU h

/-- Trees of the body are kept. -/
theorem of_allEnd (h : Expr.AllEnd env es m r m₁) (hU : ∀ e ∈ es, ∀ y, e.Mentions y → U y) :
  Kept U W t env env' es m r m₁
  := by
  induction h with
  | nil => exact .nil
  | cons h _ ih =>
    have hU := List.forall_mem_cons.1 hU
    exact .cons hU.1 h (ih hU.2)
  | head h => exact .head (List.forall_mem_cons.1 hU).1 h
  | tail h _ ih =>
    have hU := List.forall_mem_cons.1 hU
    exact .cons hU.1 h (ih hU.2)

/-- Trees with fixed values are kept before others. -/
theorem append {values : List Expr} {vs : List Value}
    (hvalues : List.Forall₂ (Fixed W t env') vs values) (h : Kept U W t env env' es m r m₁) :
  Kept U W t env env' (values ++ es) m (r.map (vs ++ ·)) m₁
  := by
  induction hvalues with
  | nil =>
    have hr : r.map (([] : List Value) ++ ·) = r := by cases r <;> rfl
    rw [hr]
    exact h
  | @cons v e vs values hv _ ih =>
    have hr : r.map ((v :: vs) ++ ·) = (r.map (vs ++ ·)).map (v :: ·) := by cases r <;> rfl
    rw [hr]
    exact .fixed hv ih

/-- The trees that are kept end alike in the scope of the code. -/
theorem allEnd (h : Kept U W t env env' es m r m₁) (hW : W ≤ W') (henv : Env.Alike W' U env env')
    (hm : Machine.Alike own 0 W' m m') :
  ∃ W'' r' m₁', W' ≤ W'' ∧ Ended.Related (fun W => List.Forall₂ (Value.Alike W)) W'' r r' ∧
    Machine.Alike own 0 W'' m₁ m₁' ∧ Expr.AllEnd env' es m' r' m₁'
  := by
  induction h generalizing W' m' with
  | nil => exact ⟨W', .ok [], m', le_refl W', .ok .nil, hm, .nil⟩
  | fixed h _ ih =>
    obtain ⟨v', hv, hends⟩ := h.ends
    obtain ⟨W₁, r', m₁', hW₁, hr, hm₁, hall⟩ := ih hW henv hm
    obtain ⟨hvs⟩ | ⟨hd⟩ := hr
    · exact ⟨W₁, .ok _, m₁', hW₁, .ok (.cons (hv.mono (le_trans hW hW₁)) hvs), hm₁,
        .cons (hends m') hall⟩
    · exact ⟨W₁, .error _, m₁', hW₁, .error hd, hm₁, .tail (hends m') hall⟩
  | cons hU h _ ih =>
    obtain ⟨W₁, _, m₁', hW₁, ⟨hv⟩, hm₁, hends⟩ := h.agree hU henv hm
    obtain ⟨W₂, r', m₂', hW₂, hr, hm₂, hall⟩ := ih (le_trans hW hW₁) (henv.mono hW₁) hm₁
    obtain ⟨hvs⟩ | ⟨hd⟩ := hr
    · exact ⟨W₂, .ok _, m₂', le_trans hW₁ hW₂, .ok (.cons (hv.mono hW₂) hvs), hm₂,
        .cons hends hall⟩
    · exact ⟨W₂, .error _, m₂', le_trans hW₁ hW₂, .error hd, hm₂, .tail hends hall⟩
  | head hU h =>
    obtain ⟨W₁, _, m₁', hW₁, _ | ⟨hd⟩, hm₁, hends⟩ := h.agree hU henv hm
    exact ⟨W₁, .error _, m₁', hW₁, .error hd, hm₁, .head hends⟩

end Kept

end Skein
