import Skein.Proofs.Derivation
import Skein.Proofs.FreshNames

/-!
# Lowering follows the rules

Whatever lowering gives has a derivation.  The names that the derivation mints are those that
the table has grown by: they are new to the table, and no two of them are equal.
-/

namespace Skein.Coroutine

open Compiling
open Skein.Expr (weight weightAll weightBindings weightClauses weightCleanup)

/-! ### Minted names -/

/-- A table has grown by some minted names, which are new to it and differ from each other. -/
structure Supplies (t : SymbolTable) (ns : List Mint) (t' : SymbolTable) : Prop where
  names : t'.names.toList = t.names.toList ++ ns.map (·.symbol)
  new : ∀ n ∈ ns, n.symbol ∉ t.names
  nodup : (ns.map (·.symbol)).Nodup

namespace Supplies

variable {t t' t'' : SymbolTable} {ns ns' : List Mint}

/-- Nothing has been minted. -/
theorem nil (t : SymbolTable) :
  Supplies t [] t
  where
  names := (List.append_nil _).symm
  new _ h := absurd h List.not_mem_nil
  nodup := List.nodup_nil

/-- A name is in the grown table when it was there before or has been minted. -/
theorem mem_names_iff (h : Supplies t ns t') {x : Symbol} :
  x ∈ t'.names ↔ x ∈ t.names ∨ ∃ n ∈ ns, n.symbol = x
  := by
  rw [← Array.mem_toList_iff, h.names, List.mem_append, Array.mem_toList_iff, List.mem_map]

/-- A table grows again. -/
theorem append (h : Supplies t ns t') (h' : Supplies t' ns' t'') :
  Supplies t (ns ++ ns') t''
  where
  names := by rw [h'.names, h.names, List.map_append, List.append_assoc]
  new n hn hmem := by
    rcases List.mem_append.1 hn with hn | hn
    · exact h.new n hn hmem
    · exact h'.new n hn (h.mem_names_iff.2 (.inl hmem))
  nodup := by
    rw [List.map_append, List.nodup_append]
    refine ⟨h.nodup, h'.nodup, ?_⟩
    intro x hx y hy hxy
    obtain ⟨n, hn, rfl⟩ := List.mem_map.1 hx
    obtain ⟨n', hn', rfl⟩ := List.mem_map.1 hy
    exact h'.new n' hn' (h.mem_names_iff.2 (.inr ⟨n, hn, hxy⟩))

/-- A name is minted. -/
theorem single {stem : String} {n : Mint} (h : fresh stem t = .ok n.symbol t') :
  Supplies t [n] t'
  := by
  obtain ⟨hnew, -, -⟩ := fresh_spec h
  obtain ⟨hname, rfl⟩ := fresh_eq_ok_iff.1 h
  refine ⟨?_, List.forall_mem_singleton.2 hnew, List.nodup_singleton _⟩
  rw [List.map_singleton, ← hname]
  exact Array.toList_push

end Supplies

variable {α β : Type} {post : α → List Mint → Prop} {post' : β → List Mint → Prop}

/-- Whatever a compilation gives has a property, together with the names that it mints. -/
def Records (post : α → List Mint → Prop) (act : Compiling α) : Prop :=
  ∀ t a t', act t = .ok a t' → ∃ ns, Supplies t ns t' ∧ post a ns

namespace Records

/-- A step without effects. -/
theorem pure {a : α} (h : post a []) :
  Records post (Pure.pure a)
  := by
  intro t b t' hb
  obtain ⟨rfl, rfl⟩ := pure_eq_ok_iff.1 hb
  exact ⟨[], .nil t, h⟩

/-- A failure gives nothing. -/
theorem throw (e : CompileError) :
  Records post (MonadExcept.throw e)
  := fun _ _ _ h => absurd h throw_ne_ok

/-- What needs no compiling. -/
theorem ofExcept {r : Except CompileError α} (h : ∀ a, r = .ok a → post a []) :
  Records post (Compiling.ofExcept r)
  := by
  intro t a t' ha
  obtain ⟨hr, rfl⟩ := ofExcept_eq_ok_iff.1 ha
  exact ⟨[], .nil t, h a hr⟩

/-- A weaker property. -/
theorem imp {post' : α → List Mint → Prop} {act : Compiling α} (h : Records post act)
    (himp : ∀ a ns, post a ns → post' a ns) :
  Records post' act
  := by
  intro t a t' ha
  obtain ⟨ns, hns, hpost⟩ := h t a t' ha
  exact ⟨ns, hns, himp a ns hpost⟩

/-- One step after another. -/
theorem bind {act : Compiling α} {k : α → Compiling β} (h : Records post act)
    (hk : ∀ a ns, post a ns → Records (fun b ns' => post' b (ns ++ ns')) (k a)) :
  Records post' (act >>= k)
  := by
  intro t b t'' hb
  obtain ⟨a, t', ha, hb⟩ := bind_eq_ok_iff.1 hb
  obtain ⟨ns, hns, hpost⟩ := h t a t' ha
  obtain ⟨ns', hns', hpost'⟩ := hk a ns hpost t' b t'' hb
  exact ⟨ns ++ ns', hns.append hns', hpost'⟩

/-- A step after a name has been minted. -/
theorem fresh_bind {stem : String} {k : Symbol → Compiling β} (n : Symbol → Mint)
    (hn : ∀ x, (n x).symbol = x) (hk : ∀ x, Records (fun b ns => post' b (n x :: ns)) (k x)) :
  Records post' (fresh stem >>= k)
  := by
  intro t b t'' hb
  obtain ⟨x, t', hx, hb⟩ := bind_eq_ok_iff.1 hb
  obtain ⟨ns, hns, hpost⟩ := hk x t' b t'' hb
  rw [← hn x] at hx
  exact ⟨n x :: ns, (Supplies.single hx).append hns, hpost⟩

/-- A step after a name has been minted that is no head of a loop. -/
theorem name_bind {stem : String} {k : Symbol → Compiling β}
    (hk : ∀ x, Records (fun b ns => post' b (.name x :: ns)) (k x)) :
  Records post' (fresh stem >>= k)
  := fresh_bind .name (fun _ => rfl) hk

/-- A step after a body has been guarded. -/
theorem guarded_bind {body : Expr} {failure : Symbol} {k : Expr → Compiling β}
    (hk : ∀ e, Records (fun b ns => post' b (.name e :: ns)) (k (guardedBy e body failure))) :
  Records post' (guarded body failure >>= k)
  := by
  unfold guarded
  rw [bind_assoc]
  refine name_bind fun e => ?_
  rw [pure_bind]
  exact hk e

/-- A step after a body has become a continuation. -/
theorem receiver_bind {x : Symbol} {body : Expr} {failure : Symbol} {k : Expr → Compiling β}
    (hk : ∀ e, Records (fun b ns => post' b (.name e :: ns)) (k (continuation x e body failure))) :
  Records post' (receiver x body failure >>= k)
  := by
  unfold receiver
  rw [bind_assoc]
  refine guarded_bind fun e => ?_
  rw [pure_bind]
  exact hk e

/-- The values that a loop is entered anew with. -/
theorem fixValues (Γ : List Symbol) (s : Scope) (vs : List Operand) :
  Records (fun fixed ns => ∃ ms, Fixes Γ s vs fixed.1 fixed.2 ms ns)
    (Coroutine.fixValues s (vs.map (·.code)))
  := by
  induction vs with
  | nil =>
    rw [List.map_nil, Coroutine.fixValues]
    exact .pure ⟨_, .nil⟩
  | cons v vs ih =>
    rw [List.map_cons, Coroutine.fixValues]
    split
    · rename_i hfixed
      refine ih.bind ?_
      rintro ⟨temps, values⟩ ns ⟨ms, h⟩
      refine .pure ?_
      rw [List.append_nil]
      exact ⟨_, .kept hfixed h⟩
    · rename_i hfixed
      refine name_bind fun t => ih.bind ?_
      rintro ⟨temps, values⟩ ns ⟨ms, h⟩
      refine .pure ?_
      rw [List.append_nil]
      exact ⟨_, .named t (Bool.eq_false_iff.2 hfixed) h⟩

end Records

/-! ### Lowering -/

/-- A compilation gives what something is lowered to. -/
abbrev Lowers (table : Table) (job : Job) (output : α → Output) (act : Compiling α) : Prop :=
  Records (fun a ns => ∃ ms, Derives table job (output a) ms ns) act

/-- No tree of some has to be lowered. -/
theorem needsLowering_of_not_any {table : Table} {s : Scope} {es : List Expr}
    (h : (!es.any (needsLowering table s)) = true) :
  ∀ e ∈ es, needsLowering table s e = false
  := by
  rw [Bool.not_eq_true', List.any_eq_false] at h
  exact fun e he => Bool.eq_false_iff.2 (h e he)

/-- Some tree after one that does not have to be lowered has to be. -/
theorem exists_needsLowering_of_any {table : Table} {s : Scope} {e : Expr} {es : List Expr}
    (hany : ¬ (!(e :: es).any (needsLowering table s)) = true)
    (he : ¬ needsLowering table s e = true) :
  ∃ d ∈ es, needsLowering table s d = true
  := by
  rw [Bool.not_eq_true', Bool.not_eq_false, List.any_cons, Bool.or_eq_true] at hany
  exact List.any_eq_true.1 (hany.resolve_left he)

/-- A tree that calls no breakpoint and is no re-entry has to be lowered only when one of its
children has to be. -/
theorem needsLowering_eq_false {table : Table} {s : Scope} {e : Expr}
    (hcalled : e.calledBreakpoint? table.has = none) (hrecur : e.isRecur = false)
    (hchildren : ∀ c ∈ e.children, needsLowering table s c = false) :
  needsLowering table s e = false
  := by
  simp only [needsLowering, Bool.or_eq_false_iff, Bool.and_eq_false_iff] at hchildren ⊢
  refine ⟨Expr.reaches_eq_false_iff.2 ⟨hcalled, fun c hc => (hchildren c hc).1⟩, ?_⟩
  rcases hhead : s.head.isSome with _ | _
  · exact .inl rfl
  · have hrecurs : e.children.any Expr.recurs = false := by
      rw [List.any_eq_false]
      intro c hc
      have := (hchildren c hc).2
      rw [hhead] at this
      exact Bool.eq_false_iff.1 (this.resolve_left Bool.noConfusion)
    rw [Expr.recurs_eq, hrecur, hrecurs, Bool.and_false]
    exact .inr rfl

/-- Raising the value of a name does not have to be lowered. -/
theorem needsLowering_raising (table : Table) (s : Scope) (x : Symbol) :
  needsLowering table s (raising (.var x)) = false
  := by
  refine needsLowering_eq_false rfl rfl
    (List.forall_mem_cons.2 ⟨?_, List.forall_mem_singleton.2 ?_⟩)
  · exact needsLowering_eq_false rfl rfl (List.forall_mem_nil _)
  · exact needsLowering_eq_false rfl rfl (List.forall_mem_nil _)

mutual

/-- Handing over the value of a tree follows the rules. -/
theorem handOver_lowers (table : Table) (Γ : List Symbol) (s : Scope) (e : Expr) :
  Lowers table (.tree Γ s e) .code (handOver table s e)
  := by
  rw [handOver]
  split
  · rename_i hn
    exact lower_lowers table Γ s e hn
  · rename_i hn
    exact .pure ⟨_, .copied (Bool.eq_false_iff.2 hn)⟩
termination_by 3 * e.weight + 1

/-- Lowering a tree follows the rules. -/
theorem lower_lowers (table : Table) (Γ : List Symbol) (s : Scope) (e : Expr) :
  needsLowering table s e = true → Lowers table (.tree Γ s e) .code (lower table s e)
  := by
  cases e with
  | literal | builtin | var | lambda =>
    intro hn
    exact absurd hn (Bool.eq_false_iff.1 (needsLowering_eq_false rfl rfl (List.forall_mem_nil _)))
  | call f args =>
    intro hn
    rw [lower]
    split
    · rename_i op handler hhandler
      apply (inOrder_lowers table Γ s [] args _ (fun F => ∀ code ms ns,
        Derives table (.inOrder Γ s [] args F) (.code code) ms ns →
        Derives table (.tree Γ s (.call f args)) (.code code) ms ns) ?_).imp
      · rintro code ns ⟨F, ms, hF, h⟩
        exact ⟨ms, hF _ _ _ h⟩
      · intro s' vs _
        exact .ofExcept fun made hmade => ⟨_, fun code ms ns => .ask hhandler hmade⟩
    · rename_i hnone
      apply (inOrder_lowers table Γ s [] (f :: args) _ (fun F => ∀ code ms ns,
        Derives table (.inOrder Γ s [] (f :: args) F) (.code code) ms ns →
        Derives table (.tree Γ s (.call f args)) (.code code) ms ns) ?_).imp
      · rintro code ns ⟨F, ms, hF, h⟩
        exact ⟨ms, hF _ _ _ h⟩
      · intro s' vs hlength
        obtain ⟨v, vs, rfl⟩ := List.exists_cons_of_length_pos (l := vs) (by simp [hlength])
        exact .pure ⟨_, fun code ms ns h => .call hn hnone h⟩
  | cond test yes no =>
    intro hn
    rw [lower]
    apply (inOrder_lowers table Γ s [] [test] _ (fun F => ∀ code ms ns,
      Derives table (.inOrder Γ s [] [test] F) (.code code) ms ns →
      Derives table (.tree Γ s (.cond test yes no)) (.code code) ms ns) ?_).imp
    · rintro code ns ⟨F, ms, hF, h⟩
      exact ⟨ms, hF _ _ _ h⟩
    · intro s' vs hlength
      obtain ⟨v, rfl⟩ := List.length_eq_one_iff.1 hlength
      refine (handOver_lowers table Γ s' yes).bind ?_
      rintro c ns₁ ⟨ms₁, hyes⟩
      refine (handOver_lowers table Γ s' no).bind ?_
      rintro c' ns₂ ⟨ms₂, hno⟩
      refine .pure ?_
      rw [List.append_nil]
      exact ⟨_, fun code ms ns h => .cond hn hyes hno h⟩
  | seq es =>
    intro hn
    rw [lower]
    have h := lowerSeq_lowers table Γ s [] es [] (List.forall_mem_nil _) (List.forall_mem_nil _)
    rw [List.append_nil] at h
    exact h.imp fun code ns ⟨ms, h⟩ => ⟨ms, .seq hn h⟩
  | bind bs body =>
    intro hn
    rw [lower]
    exact (lowerBindings_lowers table Γ s [] bs (.value body) (List.forall_mem_nil _)).imp
      fun code ns ⟨ms, h⟩ => ⟨ms, .bind hn h⟩
  | loop bs body =>
    intro hn
    rw [lower]
    refine Records.fresh_bind (.head · (bs.map (·.1))) (fun _ => rfl) fun x => ?_
    refine (handOver_lowers table ((bs.map (·.1)).reverse ++ Γ) _ body).bind ?_
    rintro inner ns₁ ⟨ms₁, hbody⟩
    refine Records.guarded_bind fun e => ?_
    refine (lowerBindings_lowers table Γ (s.binding [x]) [] bs (.code _)
      (List.forall_mem_nil _)).bind ?_
    rintro start ns₂ ⟨ms₂, hstart⟩
    refine .pure ?_
    rw [List.append_nil]
    rw [List.length_map] at hbody
    exact ⟨_, .loop x e hn hbody hstart⟩
  | recur args =>
    intro hn
    rw [lower]
    split
    · exact .throw _
    · rename_i head hhead
      split
      · rename_i harity
        apply (inOrder_lowers table Γ s [] args _ (fun F => ∀ code ms ns,
          Derives table (.inOrder Γ s [] args F) (.code code) ms ns →
          Derives table (.tree Γ s (.recur args)) (.code code) ms ns) ?_).imp
        · rintro code ns ⟨F, ms, hF, h⟩
          exact ⟨ms, hF _ _ _ h⟩
        · intro s' vs _
          refine (Records.fixValues Γ s' vs).bind ?_
          rintro ⟨temps, values⟩ ns' ⟨ms', hfixes⟩
          refine .pure ?_
          rw [List.append_nil]
          exact ⟨_, fun code ms ns h => .recur hhead harity hfixes h⟩
      · exact .throw _
  | define x e =>
    intro hn
    rw [lower]
    apply (inOrder_lowers table Γ s [] [e] _ (fun F => ∀ code ms ns,
      Derives table (.inOrder Γ s [] [e] F) (.code code) ms ns →
      Derives table (.tree Γ s (.define x e)) (.code code) ms ns) ?_).imp
    · rintro code ns ⟨F, ms, hF, h⟩
      exact ⟨ms, hF _ _ _ h⟩
    · intro s' vs hlength
      obtain ⟨v, rfl⟩ := List.length_eq_one_iff.1 hlength
      exact .pure ⟨_, fun code ms ns h => .define hn h⟩
  | protect body clauses cleanup =>
    intro hn
    rw [lower]
    split
    · rename_i hplain
      rw [Bool.and_eq_true, List.isEmpty_iff, Option.isNone_iff_eq_none] at hplain
      obtain ⟨rfl, rfl⟩ := hplain
      exact (handOver_lowers table Γ s body).imp fun code ns ⟨ms, h⟩ => ⟨ms, .plain hn h⟩
    · refine (lowerCleanup_lowers table Γ s cleanup).bind ?_
      rintro last ns₁ ⟨ms₁, hlast⟩
      refine (lowerClauses_lowers table Γ _ last clauses).bind ?_
      rintro first ns₂ ⟨ms₂, hfirst⟩
      refine (handOver_lowers table Γ _ body).bind ?_
      rintro code ns₃ ⟨ms₃, hbody⟩
      refine Records.guarded_bind fun e => .pure ?_
      exact ⟨_, .protect e hn hlast hfirst hbody⟩
termination_by 3 * e.weight
decreasing_by
  all_goals
    simp only [weight, weightAll, Tail.weight]
    omega

/-- Evaluating trees in turn follows the rules, when what is done in the end has a property. -/
theorem inOrder_lowers (table : Table) (Γ : List Symbol) (s : Scope) (values : List Operand)
    (es : List Expr) (finish : Scope → List Expr → Compiling Expr) (post : Finish → Prop) :
  (∀ s' vs, vs.length = values.length + es.length →
    Records (fun c ns => ∃ ms, post ⟨s', vs, c, ms, ns⟩) (finish s' (vs.map (·.code)))) →
  Records (fun c ns => ∃ F ms, post F ∧ Derives table (.inOrder Γ s values es F) (.code c) ms ns)
    (inOrder table s (values.map (·.code)) es finish)
  := by
  cases es with
  | nil =>
    intro hfinish
    rw [inOrder]
    refine (hfinish s values rfl).imp ?_
    rintro c ns ⟨ms, hpost⟩
    have h : Derives table (.inOrder Γ s values [] ⟨s, values ++ [], c, ms, ns⟩) (.code c) ms ns :=
      .finish (List.forall_mem_nil _)
    rw [List.append_nil] at h
    exact ⟨_, _, hpost, h⟩
  | cons e rest =>
    intro hfinish
    rw [inOrder]
    split
    · rename_i hany
      have hfinish := hfinish s (values ++ (e :: rest).map .tree) (by simp)
      rw [List.map_append, Operand.map_code_tree] at hfinish
      refine hfinish.imp ?_
      rintro c ns ⟨ms, hpost⟩
      exact ⟨_, _, hpost, .finish (needsLowering_of_not_any hany)⟩
    · rename_i hany
      split
      · rename_i hn
        refine Records.name_bind fun v => ?_
        have hrest := inOrder_lowers table Γ (s.binding [v]) (values ++ [.minted v]) rest finish
          post fun s' vs h => hfinish s' vs (by simp at h ⊢; omega)
        rw [List.map_append] at hrest
        refine hrest.bind ?_
        rintro body ns₁ ⟨F, ms₁, hpost, hrest⟩
        refine Records.name_bind fun k => Records.receiver_bind fun err => ?_
        refine (lower_lowers table Γ (s.delivering k) e hn).bind ?_
        rintro code ns₂ ⟨ms₂, h⟩
        refine .pure ?_
        rw [List.append_nil]
        exact ⟨F, _, hpost, .suspended v k hrest (.receive k v err hn h)⟩
      · rename_i hn
        have hn' := Bool.eq_false_iff.2 hn
        have hes := exists_needsLowering_of_any hany hn
        split
        · rename_i hfixed
          have hrest := inOrder_lowers table Γ s (values ++ [.tree e]) rest finish
            post fun s' vs h => hfinish s' vs (by simp at h ⊢; omega)
          rw [List.map_append] at hrest
          refine hrest.imp ?_
          rintro body ns ⟨F, ms, hpost, hrest⟩
          exact ⟨F, _, hpost, .kept hn' hes hfixed hrest⟩
        · rename_i hfixed
          refine Records.name_bind fun t => ?_
          have hrest := inOrder_lowers table Γ (s.binding [t]) (values ++ [.minted t]) rest finish
            post fun s' vs h => hfinish s' vs (by simp at h ⊢; omega)
          rw [List.map_append] at hrest
          refine hrest.bind ?_
          rintro body ns ⟨F, ms, hpost, hrest⟩
          refine .pure ?_
          rw [List.append_nil]
          exact ⟨F, _, hpost, .named t hn' hes (Bool.eq_false_iff.2 hfixed) hrest⟩
termination_by 3 * weightAll es + 2
decreasing_by
  all_goals
    have := e.weight_pos
    simp only [weightAll]
    omega

/-- Lowering a sequence follows the rules. -/
theorem lowerSeq_lowers (table : Table) (Γ : List Symbol) (s : Scope)
    (before es made : List Expr) (hbefore : ∀ b ∈ before, needsLowering table s b = false)
    (hmade : ∀ b ∈ made, needsLowering table s b = false) :
  Lowers table (.sequence Γ s (before ++ es) made) .code (lowerSeq table s before (es ++ made))
  := by
  cases es with
  | nil =>
    rw [List.nil_append, lowerSeq_of_not_needs fun e he => Bool.eq_false_iff.1 (hmade e he)]
    rw [List.append_nil]
    exact .pure ⟨_, .sequence hbefore⟩
  | cons e rest =>
    rw [List.cons_append, lowerSeq]
    split
    · rename_i hn
      rw [Bool.not_eq_true'] at hn
      have h := lowerSeq_lowers table Γ s (before ++ [e]) rest made
        (List.forall_mem_append.2 ⟨hbefore, List.forall_mem_singleton.2 hn⟩) hmade
      rw [List.append_assoc] at h
      exact h
    · rename_i hn
      rw [Bool.not_eq_true', Bool.not_eq_false] at hn
      split
      · rename_i hempty
        obtain ⟨rfl, rfl⟩ := List.append_eq_nil_iff.1 (List.isEmpty_iff.1 hempty)
        refine (lower_lowers table Γ s e hn).bind ?_
        rintro code ns ⟨ms, h⟩
        refine .pure ?_
        rw [List.append_nil]
        exact ⟨_, .sequenceLast hbefore hn h⟩
      · rename_i hempty
        have hne : rest ++ made ≠ [] := fun h => hempty (List.isEmpty_iff.2 h)
        refine Records.name_bind fun k => Records.name_bind fun ignored => ?_
        rw [handOver_block hne]
        refine (lowerSeq_lowers table Γ (s.binding [ignored]) [] rest made
          (List.forall_mem_nil _) hmade).bind ?_
        rintro after ns₁ ⟨ms₁, hafter⟩
        refine Records.receiver_bind fun err => ?_
        refine (lower_lowers table Γ (s.delivering k) e hn).bind ?_
        rintro code ns₂ ⟨ms₂, h⟩
        refine .pure ?_
        rw [List.append_nil]
        exact ⟨_, .sequenceMore k ignored hbefore hne hafter (.receive k ignored err hn h)⟩
termination_by 3 * weightAll es + 2
decreasing_by
  all_goals
    have := e.weight_pos
    simp only [weightAll]
    omega

/-- Lowering bindings follows the rules. -/
theorem lowerBindings_lowers (table : Table) (Γ : List Symbol) (s : Scope)
    (before bs : List (Symbol × Expr)) (tail : Tail)
    (hbefore : ∀ b ∈ before, needsLowering table s b.2 = false) :
  Lowers table (.bindings Γ s (before ++ bs) tail) .code
    (lowerBindings table (s.binding (before.map (·.1))) before bs tail)
  := by
  match bs with
  | [] =>
    rw [List.append_nil]
    cases tail with
    | value body =>
      rw [lowerBindings]
      refine (handOver_lowers table ((before.map (·.1)).reverse ++ Γ) _ body).bind ?_
      rintro code ns ⟨ms, h⟩
      refine .pure ?_
      rw [List.append_nil]
      exact ⟨_, .bindingsValue hbefore h⟩
    | code code =>
      rw [lowerBindings]
      exact .pure ⟨_, .bindingsCode hbefore⟩
  | (x, e) :: rest =>
    rw [lowerBindings]
    split
    · rename_i hn
      refine (lowerBindings_lowers table (x :: ((before.map (·.1)).reverse ++ Γ))
        ((s.binding (before.map (·.1))).binding [x]) [] rest tail (List.forall_mem_nil _)).bind ?_
      rintro after ns₁ ⟨ms₁, hafter⟩
      refine Records.name_bind fun k => Records.receiver_bind fun err => ?_
      refine (lower_lowers table ((before.map (·.1)).reverse ++ Γ)
        ((s.binding (before.map (·.1))).delivering k) e hn).bind ?_
      rintro code ns₂ ⟨ms₂, h⟩
      refine .pure ?_
      rw [List.append_nil]
      exact ⟨_, .bindingsMore k hbefore hafter (.receive k x err hn h)⟩
    · rename_i hn
      have hbefore : ∀ b ∈ before ++ [(x, e)], needsLowering table s b.2 = false :=
        List.forall_mem_append.2 ⟨hbefore, List.forall_mem_singleton.2 (Bool.eq_false_iff.2 hn)⟩
      have h := lowerBindings_lowers table Γ s (before ++ [(x, e)]) rest tail hbefore
      rw [List.append_assoc, List.map_append, Scope.binding_append] at h
      exact h
termination_by 3 * (weightBindings bs + tail.weight) + 2
decreasing_by
  · simp only [weightBindings, Tail.weight]
    omega
  all_goals
    have := e.weight_pos
    simp only [weightBindings]
    omega

/-- Lowering a cleanup follows the rules. -/
theorem lowerCleanup_lowers (table : Table) (Γ : List Symbol) (s : Scope)
    (cleanup : Option Expr) :
  Lowers table (.cleanup Γ s cleanup) .landing (lowerCleanup table s cleanup)
  := by
  cases cleanup with
  | none =>
    rw [lowerCleanup]
    exact .pure ⟨_, .noCleanup⟩
  | some e =>
    rw [lowerCleanup]
    refine Records.name_bind fun k => Records.name_bind fun v => ?_
    rw [handOver_block (List.cons_ne_nil _ _)]
    refine (lowerSeq_lowers table Γ (s.binding [v]) [] [e] [.var v] (List.forall_mem_nil _)
      (List.forall_mem_singleton.2
        (needsLowering_eq_false rfl rfl (List.forall_mem_nil _)))).bind ?_
    rintro c ns₁ ⟨ms₁, hvalue⟩
    refine Records.receiver_bind fun g => Records.name_bind fun f => Records.name_bind fun err => ?_
    rw [handOver_block (List.cons_ne_nil _ _)]
    refine (lowerSeq_lowers table Γ (s.binding [err]) [] [e] [raising (.var err)]
      (List.forall_mem_nil _) (List.forall_mem_singleton.2 (needsLowering_raising table _ err))).bind ?_
    rintro c' ns₂ ⟨ms₂, herror⟩
    refine Records.receiver_bind fun g' => .pure ?_
    exact ⟨_, .cleanup k v g f err g' hvalue herror⟩
termination_by 3 * weightCleanup cleanup + 16
decreasing_by
  all_goals
    simp only [weightCleanup, weightAll]
    omega

/-- Lowering clauses follows the rules. -/
theorem lowerClauses_lowers (table : Table) (Γ : List Symbol) (s : Scope) (last : Landing)
    (clauses : List (Clause Expr)) :
  Lowers table (.clauses Γ s last clauses) .landing (lowerClauses table s last clauses)
  := by
  rw [lowerClauses]
  split
  · rename_i hempty
    obtain rfl := List.isEmpty_iff.1 hempty
    exact .pure ⟨_, .noClauses⟩
  · rename_i hempty
    refine Records.name_bind fun f => Records.name_bind fun err => ?_
    refine (lowerBodies_lowers table Γ _ clauses).bind ?_
    rintro selected ns ⟨ms, h⟩
    refine Records.receiver_bind fun g => .pure ?_
    exact ⟨_, .clauses f err g (fun h => hempty (List.isEmpty_iff.2 h)) h⟩
termination_by 3 * weightClauses clauses + 3
decreasing_by
  omega

/-- Lowering the bodies of clauses follows the rules. -/
theorem lowerBodies_lowers (table : Table) (Γ : List Symbol) (s : Scope)
    (clauses : List (Clause Expr)) :
  Lowers table (.bodies Γ s clauses) .clauses (lowerBodies table s clauses)
  := by
  match clauses with
  | [] =>
    rw [lowerBodies]
    exact .pure ⟨_, .noBodies⟩
  | ⟨selector, x, e⟩ :: rest =>
    rw [lowerBodies]
    refine (handOver_lowers table (x :: Γ) (s.binding [x]) e).bind ?_
    rintro code ns₁ ⟨ms₁, h⟩
    refine (lowerBodies_lowers table Γ s rest).bind ?_
    rintro selected ns₂ ⟨ms₂, hrest⟩
    refine .pure ?_
    rw [List.append_nil]
    exact ⟨_, .bodies h hrest⟩
termination_by 3 * weightClauses clauses + 2
decreasing_by
  all_goals
    have := e.weight_pos
    simp only [weightClauses]
    omega

end

/-- Whatever a body is compiled to follows the rules. -/
theorem compile_compiles (table : Table) (body : Expr) :
  Records (fun code ns => ∃ ms, Compiles table body code ms ns) (compile table body)
  := by
  unfold compile
  refine Records.name_bind fun success => Records.name_bind fun failure => ?_
  refine (handOver_lowers table [] (.ofContinuations success failure) body).bind ?_
  rintro code ns ⟨ms, h⟩
  refine .pure ?_
  rw [List.append_nil]
  exact ⟨_, .mk success failure h⟩

end Skein.Coroutine
