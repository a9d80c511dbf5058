import Skein.Proofs.AlikeLinked
import Skein.Proofs.Suspended

/-!
# Evaluations that end alike

What ends on a machine ends alike on an alike machine, with as much fuel as it takes:
evaluating a tree, calling a function, and evaluating trees and bindings in turn.
-/

namespace Skein

variable {own n : Nat} {W : World} {m m₁ m' : Machine}

/-- Related ends of values are alike. -/
theorem Ended.Related.alike {r r' : Ended Value} (h : Ended.Related Value.Alike W r r') :
  Ended.Alike W r r'
  := by
  cases h with
  | ok h => exact .ok h
  | error h => exact .error h

/-- Calling alike functions with alike arguments ends alike. -/
theorem Value.CallEnds.agree {g g' : Value} {vs vs' : List Value} {r : Ended Value}
    (h : g.CallEnds vs m r m₁) (hg : Value.Alike W g g')
    (hvs : List.Forall₂ (Value.Alike W) vs vs') (hm : Machine.Alike own n W m m') :
  ∃ W' r' m₁', W ≤ W' ∧ Ended.Alike W' r r' ∧ Machine.Alike own n W' m₁ m₁' ∧
    g'.CallEnds vs' m' r' m₁'
  := by
  obtain ⟨k, h⟩ := h
  obtain ⟨W', r', m₁', hW, hr, hm₁, hcall⟩ :=
    Value.call_gives hg hvs (h k k (Nat.le_refl k) (Nat.le_refl k)) hm
  refine ⟨W', r', m₁', hW, hr.alike, hm₁, k, fun c f hc _ => ?_⟩
  exact Value.call_below hc g' vs' m' r' m₁' hcall

namespace Expr

variable {S : Symbol → Prop} {env env' : Env}

/-- Evaluating a tree in alike scopes ends alike. -/
theorem Ends.agree {e : Expr} {r : Ended Value} (h : e.Ends env m r m₁)
    (hS : ∀ x, e.Mentions x → S x) (henv : Env.Alike W S env env')
    (hm : Machine.Alike own n W m m') :
  ∃ W' r' m₁', W ≤ W' ∧ Ended.Alike W' r r' ∧ Machine.Alike own n W' m₁ m₁' ∧
    e.Ends env' m' r' m₁'
  := by
  obtain ⟨k, h⟩ := h
  obtain ⟨W', s, m₁', hW, hs, hm₁, hgives⟩ :=
    e.tail_gives hS henv (h k k (Nat.le_refl k) (Nat.le_refl k)) hm
  have hends : e.TailEnds env' m' s m₁' :=
    ⟨k, fun c f hc hf => Expr.tail_below (Value.call_below hc) hf env' e m' s m₁' hgives⟩
  cases r with
  | ok v =>
    obtain ⟨⟨hv⟩⟩ := hs
    exact ⟨W', .ok _, m₁', hW, .ok hv, hm₁, hends⟩
  | error d =>
    obtain _ | ⟨hd⟩ := hs
    exact ⟨W', .error _, m₁', hW, .error hd, hm₁, hends⟩

/-- Evaluating trees in turn in alike scopes ends alike. -/
theorem AllEnd.agree {es : List Expr} {r : Ended (List Value)} (h : AllEnd env es m r m₁)
    (hS : ∀ e ∈ es, ∀ x, e.Mentions x → S x) (henv : Env.Alike W S env env')
    (hm : Machine.Alike own n W m m') :
  ∃ W' r' m₁', W ≤ W' ∧ Ended.Related (fun W => List.Forall₂ (Value.Alike W)) W' r r' ∧
    Machine.Alike own n W' m₁ m₁' ∧ AllEnd env' es m' r' m₁'
  := by
  induction h generalizing W m' with
  | nil => exact ⟨W, .ok [], m', le_refl W, .ok .nil, hm, .nil⟩
  | cons h _ ih =>
    have hS := List.forall_mem_cons.1 hS
    obtain ⟨W₁, r', m₁', hW₁, ⟨hv⟩, hm₁, hends⟩ := h.agree hS.1 henv hm
    obtain ⟨W₂, s', m₂', hW₂, ⟨hvs⟩, hm₂, hall⟩ := ih hS.2 (henv.mono hW₁) hm₁
    exact ⟨W₂, .ok _, m₂', le_trans hW₁ hW₂, .ok (.cons (hv.mono hW₂) hvs), hm₂,
      .cons hends hall⟩
  | head h =>
    have hS := List.forall_mem_cons.1 hS
    obtain ⟨W₁, r', m₁', hW₁, _ | ⟨hd⟩, hm₁, hends⟩ := h.agree hS.1 henv hm
    exact ⟨W₁, .error _, m₁', hW₁, .error hd, hm₁, .head hends⟩
  | tail h _ ih =>
    have hS := List.forall_mem_cons.1 hS
    obtain ⟨W₁, r', m₁', hW₁, ⟨hv⟩, hm₁, hends⟩ := h.agree hS.1 henv hm
    obtain ⟨W₂, s', m₂', hW₂, _ | ⟨hd⟩, hm₂, hall⟩ := ih hS.2 (henv.mono hW₁) hm₁
    exact ⟨W₂, .error _, m₂', le_trans hW₁ hW₂, .error hd, hm₂, .tail hends hall⟩

/-- Trees in turn and then some more, which all have values. -/
theorem AllEnd.append {es fs : List Expr} {vs ws : List Value} {m₂ : Machine}
    (h : AllEnd env es m (.ok vs) m₁) (h' : AllEnd env fs m₁ (.ok ws) m₂) :
  AllEnd env (es ++ fs) m (.ok (vs ++ ws)) m₂
  := by
  generalize hr : (Except.ok vs : Ended (List Value)) = r at h
  induction h generalizing vs with
  | nil =>
    cases hr
    exact h'
  | cons h _ ih =>
    cases hr
    exact .cons h (ih h' rfl)
  | head => cases hr
  | tail => cases hr

/-- Trees in turn of which one raises a condition, whatever comes after them. -/
theorem AllEnd.append_error {es : List Expr} {d : Condition Value}
    (h : AllEnd env es m (.error d) m₁) (fs : List Expr) :
  AllEnd env (es ++ fs) m (.error d) m₁
  := by
  generalize hr : (Except.error d : Ended (List Value)) = r at h
  induction h with
  | nil => cases hr
  | cons => cases hr
  | head h =>
    cases hr
    exact .head h
  | tail h _ ih =>
    cases hr
    exact .tail h (ih rfl)

/-- Trees in turn that have values, and then one that raises a condition. -/
theorem AllEnd.append_head {es fs : List Expr} {vs : List Value} {d : Condition Value}
    {m₂ : Machine} (h : AllEnd env es m (.ok vs) m₁) (h' : AllEnd env fs m₁ (.error d) m₂) :
  AllEnd env (es ++ fs) m (.error d) m₂
  := by
  generalize hr : (Except.ok vs : Ended (List Value)) = r at h
  induction h generalizing vs with
  | nil => exact h'
  | cons h _ ih =>
    cases hr
    exact .tail h (ih h' rfl)
  | head => cases hr
  | tail => cases hr

/-- The bindings that bindings add to a scope. -/
theorem BindingsEnd.eq_append {bs : List (Symbol × Expr)} {env₁ : Env}
    (h : BindingsEnd env bs m (.ok env₁) m₁) :
  ∃ added : Env, env₁ = added ++ env ∧ added.map (·.1) = (bs.map (·.1)).reverse
  := by
  generalize hr : (Except.ok env₁ : Ended Env) = r at h
  induction h with
  | nil =>
    cases hr
    exact ⟨[], rfl, rfl⟩
  | @cons env x e bs m m₁ m₂ v r h hs ih =>
    obtain ⟨added, rfl, hadded⟩ := ih hr
    refine ⟨added ++ [(x, v)], by rw [List.append_assoc]; rfl, ?_⟩
    rw [List.map_append, hadded, List.map_cons (l := bs), List.reverse_cons]
    rfl
  | head => cases hr

/-- Evaluating bindings in alike scopes ends alike. -/
theorem BindingsEnd.agree {bs : List (Symbol × Expr)} {r : Ended Env}
    (h : BindingsEnd env bs m r m₁) (hS : ∀ b ∈ bs, ∀ x, b.2.Mentions x → S x)
    (henv : Env.Alike W S env env') (hm : Machine.Alike own n W m m') :
  ∃ W' r' m₁', W ≤ W' ∧ Ended.Related (fun W => Env.Alike W S) W' r r' ∧
    Machine.Alike own n W' m₁ m₁' ∧ BindingsEnd env' bs m' r' m₁'
  := by
  induction h generalizing W m' env' with
  | nil => exact ⟨W, .ok env', m', le_refl W, .ok henv, hm, .nil⟩
  | cons h _ ih =>
    have hS := List.forall_mem_cons.1 hS
    obtain ⟨W₁, r', m₁', hW₁, ⟨hv⟩, hm₁, hends⟩ := h.agree hS.1 henv hm
    obtain ⟨W₂, s', m₂', hW₂, hs, hm₂, hall⟩ := ih hS.2 ((henv.mono hW₁).cons _ hv) hm₁
    exact ⟨W₂, s', m₂', le_trans hW₁ hW₂, hs, hm₂, .cons hends hall⟩
  | head h =>
    have hS := List.forall_mem_cons.1 hS
    obtain ⟨W₁, r', m₁', hW₁, _ | ⟨hd⟩, hm₁, hends⟩ := h.agree hS.1 henv hm
    exact ⟨W₁, .error _, m₁', hW₁, .error hd, hm₁, .head hends⟩

end Expr

end Skein
