import Skein.Proofs.Simulation.InOrder

/-!
# Sequences

The code of a sequence follows direct runs when the code of its trees does.  The trees
before one that suspends stand where they stood; what comes after it is done by its
continuation.
-/

namespace Skein

open Coroutine

variable {own : Nat} {G : Aim} {U : Symbol → Prop} {W W' : World}
  {inner : Bool} {env : Env} {last last₁ last₂ : Option (Context Value)} {m m₁ m₂ : Machine}

/-- Trees of which one raises a condition, as a block. -/
theorem Expr.AllEnd.block_error {es : List Expr} {d : Condition Value}
    (h : Expr.AllEnd env es m (.error d) m₁) :
  (Expr.block es).Ends env m (.error d) m₁
  := by
  generalize hr : (Except.error d : Ended (List Value)) = r at h
  have hstatements : Expr.StatementsEnd env es m (.error d) m₁ := by
    induction h with
    | nil => cases hr
    | cons => cases hr
    | @head e es m m₁ c h =>
      cases hr
      cases es with
      | nil => exact .last h
      | cons e' es => exact .head (List.cons_ne_nil e' es) h
    | @tail e es m m₁ m₂ v c h hs ih =>
      cases hr
      have hne : es ≠ [] := by
        rintro rfl
        cases hs
      exact .cons hne h (ih rfl)
  exact hstatements.block

/-- Whatever code a sequence gets after some trees, it follows a run of both that gives
`r`. -/
def Expr.StatementsFollowed (own : Nat) (G : Aim) (U : Symbol → Prop)
    (inner : Bool) (es : List Expr) (env : Env) (last : Option (Context Value)) (m : Machine)
    (r : Ended Yield) (last₁ : Option (Context Value)) (m₁ : Machine) : Prop :=
  ∀ {W m₀ m' env' wrap t t' s code x before vs}, s.head.isSome = inner →
    Fits U W t s env env' x → (∀ e ∈ before, ∀ y, e.Mentions y → U y) →
    Expr.AllEnd env before m₀ (.ok vs) m → Machine.Alike own 0 W m₀ m' →
    LastAlike W last wrap → x.Take own G W r last₁ m₁ →
    lowerSeq Table.default s before es t = .ok code t' →
    code.Reaches own G W wrap env' m' r last₁ m₁

namespace Expr.StatementsFollowed

variable {e : Expr} {es : List Expr} {r : Ended Yield} {d : Condition Value}

/-- The code of a sequence raises what a tree before it raises. -/
theorem ends_lowerSeq_error {s : Scope} {before es : List Expr} {t t' : SymbolTable}
    {code : Expr} {m m₁ : Machine} (hcode : lowerSeq Table.default s before es t = .ok code t')
    {k : Value} (hk : List.lookup s.success env = some k)
    (h : Expr.AllEnd env before m (.error d) m₁) :
  code.Ends env m (.error d) m₁
  := by
  induction es generalizing before t with
  | nil =>
    rw [lowerSeq] at hcode
    obtain ⟨rfl, -⟩ := Compiling.pure_eq_ok_iff.1 hcode
    exact Expr.ends_call_error (.tail (Expr.ends_var hk) (.head h.block_error))
  | cons e es ih =>
    rw [lowerSeq] at hcode
    split at hcode
    · exact ih hcode (h.append_error [e])
    · split at hcode
      · obtain ⟨code', t₁, _, hcode⟩ := Compiling.bind_eq_ok_iff.1 hcode
        obtain ⟨rfl, -⟩ := Compiling.pure_eq_ok_iff.1 hcode
        exact Expr.ends_block_error h
      · obtain ⟨k, t₁, _, hcode⟩ := Compiling.bind_eq_ok_iff.1 hcode
        obtain ⟨ignored, t₂, _, hcode⟩ := Compiling.bind_eq_ok_iff.1 hcode
        obtain ⟨after, t₃, _, hcode⟩ := Compiling.bind_eq_ok_iff.1 hcode
        obtain ⟨cont, t₄, _, hcode⟩ := Compiling.bind_eq_ok_iff.1 hcode
        obtain ⟨code', t₅, _, hcode⟩ := Compiling.bind_eq_ok_iff.1 hcode
        obtain ⟨rfl, -⟩ := Compiling.pure_eq_ok_iff.1 hcode
        exact Expr.ends_block_error h

/-- A sequence of one tree is followed when the tree is. -/
theorem single (hU : ¬ e.Needs inner → ∀ y, e.Mentions y → U y)
    (hplain : ¬ e.Needs inner →
      last₁ = last ∧ ∃ s : Ended Value, r = s.map .value ∧ e.Ends env m s m₁)
    (he : e.Followed own G U inner env last m r last₁ m₁) :
  Expr.StatementsFollowed own G U inner [e] env last m r last₁ m₁
  := by
  intro W m₀ m' env' wrap t t' s code x before vs hs hfit hbefore hvs hm hlast htake hcode
  obtain ⟨W', r', m'', hW, ⟨hvs'⟩, hm', hall⟩ := hvs.agree hbefore hfit.alike hm
  rw [lowerSeq] at hcode
  split at hcode
  · rename_i hn
    have hn := not_needs_of_not hs hn
    obtain ⟨rfl, r, rfl, hends⟩ := hplain hn
    rw [lowerSeq] at hcode
    obtain ⟨rfl, -⟩ := Compiling.pure_eq_ok_iff.1 hcode
    obtain ⟨W'', r'', m₁', hW', hr, hm₁, hends'⟩ :=
      hends.agree (hU hn) (hfit.alike.mono hW) hm'
    exact .send htake hfit.success.lookup (le_trans hW hW') hr hm₁
      (hlast.mono (le_trans hW hW')) (Expr.tailEnds_block hall hends')
  · rename_i hn
    have hn := needs_of_not_not hs hn
    rw [if_pos List.isEmpty_nil] at hcode
    obtain ⟨code', t₁, hcode', hcode⟩ := Compiling.bind_eq_ok_iff.1 hcode
    obtain ⟨rfl, -⟩ := Compiling.pure_eq_ok_iff.1 hcode
    rw [← handOver_of_needs hs hn] at hcode'
    apply Expr.Reaches.block _ hall
    apply Expr.Reaches.mono hW
    exact he hs (hfit.mono hW) hm' (hlast.mono hW) (htake.mono hW) hcode'

/-- A sequence is followed when its first tree and the sequence after it are. -/
theorem cons {v : Value} (hne : es ≠ []) (hU : ¬ e.Needs inner → ∀ y, e.Mentions y → U y)
    (hplain : ¬ e.Needs inner → last₁ = last ∧ e.Ends env m (.ok v) m₁)
    (he : e.Followed own G U inner env last m (.ok (.value v)) last₁ m₁)
    (hes : Expr.StatementsFollowed own G U inner es env last₁ m₁ r last₂ m₂) :
  Expr.StatementsFollowed own G U inner (e :: es) env last m r last₂ m₂
  := by
  intro W m₀ m' env' wrap t t' s code x before vs hs hfit hbefore hvs hm hlast htake hcode
  rw [lowerSeq] at hcode
  split at hcode
  · rename_i hn
    have hn := not_needs_of_not hs hn
    obtain ⟨rfl, hends⟩ := hplain hn
    refine hes hs hfit ?_ (hvs.append (.cons hends .nil)) hm hlast htake hcode
    intro d hd
    rcases List.mem_append.1 hd with hd | hd
    · exact hbefore d hd
    · obtain rfl := List.mem_singleton.1 hd
      exact hU hn
  · rename_i hn
    have hn := needs_of_not_not hs hn
    rw [if_neg (by rw [List.isEmpty_iff]; exact hne)] at hcode
    obtain ⟨k, t₁, hk, hcode⟩ := Compiling.bind_eq_ok_iff.1 hcode
    obtain ⟨ignored, t₂, hignored, hcode⟩ := Compiling.bind_eq_ok_iff.1 hcode
    obtain ⟨after, t₃, hafter, hcode⟩ := Compiling.bind_eq_ok_iff.1 hcode
    obtain ⟨cont, t₄, hcont, hcode⟩ := Compiling.bind_eq_ok_iff.1 hcode
    obtain ⟨code', t₅, hcode', hcode⟩ := Compiling.bind_eq_ok_iff.1 hcode
    obtain ⟨rfl, -⟩ := Compiling.pure_eq_ok_iff.1 hcode
    obtain ⟨hk, hk', ht₁⟩ := Compiling.fresh_spec hk
    obtain ⟨hi, hi', ht₂⟩ := Compiling.fresh_spec hignored
    have ht₃ := handOver_grows Table.default _ _ _ _ _ hafter
    rw [handOver_block hne] at hafter
    obtain ⟨W', r', m'', hW, ⟨hvs'⟩, hm', hall⟩ := hvs.agree hbefore hfit.alike hm
    have hfit₁ := (hfit.mono hW).within ht₁
    apply Expr.Reaches.block _ hall
    apply Expr.Reaches.completes
    refine he.delivering hn hs (hfit.mono hW) hm' (hlast.mono hW) (htake.mono hW)
      (ht₁.trans (ht₂.trans ht₃)) hk (ht₃ k (ht₂ k hk')) hcont hcode' ?_ ?_
    · rintro rfl
      exact hi (ht₁ _ hfit.failure.known)
    · intro W₁ v' wrap m' hW₁ hv hlast hm
      refine hes (s := s.binding [ignored]) hs ((hfit₁.mono hW₁).fresh hi ht₂ v') ?_ .nil hm
        hlast ((htake.mono hW).mono hW₁) hafter
      intro d hd
      cases hd

/-- A sequence whose first tree raises a condition is followed. -/
theorem head (hne : es ≠ []) (hU : ¬ e.Needs inner → ∀ y, e.Mentions y → U y)
    (hplain : ¬ e.Needs inner → last₁ = last ∧ e.Ends env m (.error d) m₁)
    (he : e.Followed own G U inner env last m (.error d) last₁ m₁) :
  Expr.StatementsFollowed own G U inner (e :: es) env last m (.error d) last₁ m₁
  := by
  intro W m₀ m' env' wrap t t' s code x before vs hs hfit hbefore hvs hm hlast htake hcode
  obtain ⟨W', r', m'', hW, ⟨hvs'⟩, hm', hall⟩ := hvs.agree hbefore hfit.alike hm
  rw [lowerSeq] at hcode
  split at hcode
  · rename_i hn
    have hn := not_needs_of_not hs hn
    obtain ⟨rfl, hends⟩ := hplain hn
    obtain ⟨W'', _, m₁', hW', _ | ⟨hd⟩, hm₁, hends'⟩ :=
      hends.agree (hU hn) (hfit.alike.mono hW) hm'
    have hW' := le_trans hW hW'
    apply Expr.Reaches.escapes rfl hW' (hlast.mono hW') hd hm₁
    exact ends_lowerSeq_error hcode hfit.success.lookup (hall.append_head (.head hends'))
  · rename_i hn
    have hn := needs_of_not_not hs hn
    rw [if_neg (by rw [List.isEmpty_iff]; exact hne)] at hcode
    obtain ⟨k, t₁, hk, hcode⟩ := Compiling.bind_eq_ok_iff.1 hcode
    obtain ⟨ignored, t₂, hignored, hcode⟩ := Compiling.bind_eq_ok_iff.1 hcode
    obtain ⟨after, t₃, hafter, hcode⟩ := Compiling.bind_eq_ok_iff.1 hcode
    obtain ⟨cont, t₄, hcont, hcode⟩ := Compiling.bind_eq_ok_iff.1 hcode
    obtain ⟨code', t₅, hcode', hcode⟩ := Compiling.bind_eq_ok_iff.1 hcode
    obtain ⟨rfl, -⟩ := Compiling.pure_eq_ok_iff.1 hcode
    obtain ⟨hk, hk', ht₁⟩ := Compiling.fresh_spec hk
    obtain ⟨hi, hi', ht₂⟩ := Compiling.fresh_spec hignored
    have ht₃ := handOver_grows Table.default _ _ _ _ _ hafter
    apply Expr.Reaches.block _ hall
    apply Expr.Reaches.mono hW
    exact he.delivering_error hn hs (hfit.mono hW) hm' (hlast.mono hW) (htake.mono hW)
      (ht₁.trans (ht₂.trans ht₃)) hk (ht₃ k (ht₂ k hk')) hcont hcode'

end Expr.StatementsFollowed

/-- A sequence is followed when its trees are. -/
theorem Expr.Followed.seq {es : List Expr} {r : Ended Yield} (hn : (Expr.seq es).Needs inner)
    (h : Expr.StatementsFollowed own G U inner es env last m r last₁ m₁) :
  (Expr.seq es).Followed own G U inner env last m r last₁ m₁
  := by
  intro W m' env' wrap t t' s code x hs hfit hm hlast htake hcode
  rw [handOver_of_needs hs hn, lower] at hcode
  refine h hs hfit ?_ .nil hm hlast htake hcode
  intro d hd
  cases hd

end Skein
