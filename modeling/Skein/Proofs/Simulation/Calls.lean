import Skein.Proofs.Simulation.InOrder

/-!
# Calls, conditionals and definitions

The code of a tree whose parts are evaluated in turn follows direct runs of it when the
code of its parts does.
-/

namespace Skein

open Coroutine

variable {own : Nat} {G : Aim} {U : Symbol → Prop} {inner : Bool} {env : Env}
  {last last₁ last₂ : Option (Context Value)} {m m₁ m₂ : Machine} {d : Condition Value}

/-- Only `await` is a breakpoint. -/
theorem calledHandler?_eq_none {f : Expr} (hf : f ≠ .var "await") :
  calledHandler? Table.default f = none
  := by
  cases f with
  | var op =>
    have hop : ("await" == op) = false := by
      rw [beq_eq_false_iff_ne]
      rintro rfl
      exact hf rfl
    rw [calledHandler?, Table.handler?, Table.default, List.find?_cons_of_neg]
    · rfl
    · rw [Bool.not_eq_true]
      exact hop
  | _ => rfl

/-- Trees that have a first value have a first tree. -/
theorem Expr.AllEnd.exists_cons {es : List Expr} {v : Value} {vs : List Value}
    (h : Expr.AllEnd env es m (.ok (v :: vs)) m₁) :
  ∃ e rest, es = e :: rest
  := by
  cases h with
  | cons h hs => exact ⟨_, _, rfl⟩

/-- Trees of which one raises a condition have a first tree. -/
theorem Expr.AllEnd.exists_cons_of_error {es : List Expr}
    (h : Expr.AllEnd env es m (.error d) m₁) :
  ∃ e rest, es = e :: rest
  := by
  cases h with
  | head h => exact ⟨_, _, rfl⟩
  | tail h hs => exact ⟨_, _, rfl⟩

/-- A single tree that raises a condition. -/
theorem Expr.AllEnd.of_single {e : Expr} (h : Expr.AllEnd env [e] m (.error d) m₁) :
  e.Ends env m (.error d) m₁
  := by
  cases h with
  | head h => exact h
  | tail h hs => cases hs

namespace Expr.Followed

/-! ### Calls -/

/-- A call is followed when its function and its arguments are. -/
theorem call {f : Expr} {args : List Expr} {g : Value} {vs : List Value} {r : Ended Value}
    (hn : (Expr.call f args).Needs inner) (hf : f ≠ .var "await")
    (hes : Expr.AllFollowed own G U inner (f :: args) env last m (.ok (g :: vs)) last₁ m₁)
    (hr : g.CallEnds vs m₁ r m₂) :
  (Expr.call f args).Followed own G U inner env last m (r.map .value) last₁ m₂
  := by
  intro W m' env' wrap t t' s code x hs hfit hm hlast htake hcode
  rw [handOver_of_needs hs hn, lower, calledHandler?_eq_none hf] at hcode
  refine hes hs hfit hm hlast htake ?_ .nil (fun _ _ => Compiling.grows_pure _) ?_ hcode
  · intro d hd
    cases hd
  apply Finishes.of_ok
  intro W' t t' s trees code env' wrap m' m₁' vs' hW hs hk hfit hcode hall hvs hm₁ hlast
  obtain ⟨rfl, -⟩ := Compiling.pure_eq_ok_iff.1 hcode
  obtain _ | ⟨hg, hvs⟩ := hvs
  obtain ⟨f', args', rfl⟩ := hall.exists_cons
  obtain ⟨W'', r', m₂', hW', hr', hm₂, hcall⟩ := hr.agree hg hvs hm₁
  exact .send (htake.mono hW) hfit.success.lookup hW' hr' hm₂ (hlast.mono hW')
    (Expr.ends_call hall hcall)

/-- A call whose function or arguments raise a condition is followed. -/
theorem call_error {f : Expr} {args : List Expr} (hn : (Expr.call f args).Needs inner)
    (hf : f ≠ .var "await")
    (hes : Expr.AllFollowed own G U inner (f :: args) env last m (.error d) last₁ m₁) :
  (Expr.call f args).Followed own G U inner env last m (.error d) last₁ m₁
  := by
  intro W m' env' wrap t t' s code x hs hfit hm hlast htake hcode
  rw [handOver_of_needs hs hn, lower, calledHandler?_eq_none hf] at hcode
  refine hes hs hfit hm hlast htake ?_ .nil (fun _ _ => Compiling.grows_pure _) ?_ hcode
  · rintro c ⟨⟩
    exact ⟨rfl, rfl, rfl⟩
  intro W' t t' s trees code env' wrap m m' hW hs hk hfit hcode hkept hm hlast
  obtain ⟨rfl, -⟩ := Compiling.pure_eq_ok_iff.1 hcode
  obtain ⟨W'', r', m₁', hW', _ | ⟨hd⟩, hm₁, hall⟩ := hkept.allEnd (le_refl W') hfit.alike hm
  obtain ⟨f', args', rfl⟩ := hall.exists_cons_of_error
  apply Expr.Reaches.escapes rfl hW' (hlast.mono hW') hd hm₁
  exact Expr.ends_call_error
    (.tail (Expr.ends_var hfit.success.lookup) (.head (Expr.ends_call_error hall)))

/-! ### Conditionals -/

/-- A conditional is followed when its test and the branch that it takes are. -/
theorem cond {test yes no : Expr} {v : Value} {r : Ended Yield}
    (hn : (Expr.cond test yes no).Needs inner)
    (htest : Expr.AllFollowed own G U inner [test] env last m (.ok [v]) last₁ m₁)
    (h : (if v.isTruthy then yes else no).Followed own G U inner env last₁ m₁ r last₂ m₂) :
  (Expr.cond test yes no).Followed own G U inner env last m r last₂ m₂
  := by
  intro W m' env' wrap t t' s code x hs hfit hm hlast htake hcode
  rw [handOver_of_needs hs hn, lower] at hcode
  refine htest hs hfit hm hlast htake ?_ .nil ?_ ?_ hcode
  · intro d hd
    cases hd
  · intro s values
    apply (handOver_grows Table.default s yes).bind
    intro code
    exact (handOver_grows Table.default s no).bind fun _ => Compiling.grows_pure _
  apply Finishes.of_ok
  intro W' t t' s' trees code env' wrap m' m₁' vs' hW hs' hk hfit hcode hall hvs hm₁ hlast
  have hs : s'.head.isSome = inner := by rw [hs', hs]
  obtain ⟨code₁, t₁, hyes, hcode⟩ := Compiling.bind_eq_ok_iff.1 hcode
  obtain ⟨code₂, t₂, hno, hcode⟩ := Compiling.bind_eq_ok_iff.1 hcode
  obtain ⟨rfl, -⟩ := Compiling.pure_eq_ok_iff.1 hcode
  obtain _ | ⟨hv, _ | _⟩ := hvs
  obtain ⟨test', rest, rfl⟩ := hall.exists_cons
  obtain _ | ⟨htest', _ | _⟩ := hall
  refine Expr.Reaches.cond ?_ htest'
  rw [← hv.isTruthy_eq]
  by_cases hv : v.isTruthy = true
  · rw [if_pos hv] at h ⊢
    exact h hs hfit hm₁ hlast (htake.mono hW) hyes
  · rw [if_neg hv] at h ⊢
    have hfit := hfit.within (handOver_grows Table.default s' yes _ _ _ hyes)
    exact h hs hfit hm₁ hlast (htake.mono hW) hno

/-- A conditional whose test raises a condition is followed. -/
theorem cond_error {test yes no : Expr} (hn : (Expr.cond test yes no).Needs inner)
    (htest : Expr.AllFollowed own G U inner [test] env last m (.error d) last₁ m₁) :
  (Expr.cond test yes no).Followed own G U inner env last m (.error d) last₁ m₁
  := by
  intro W m' env' wrap t t' s code x hs hfit hm hlast htake hcode
  rw [handOver_of_needs hs hn, lower] at hcode
  refine htest hs hfit hm hlast htake ?_ .nil ?_ ?_ hcode
  · rintro c ⟨⟩
    exact ⟨rfl, rfl, rfl⟩
  · intro s values
    apply (handOver_grows Table.default s yes).bind
    intro code
    exact (handOver_grows Table.default s no).bind fun _ => Compiling.grows_pure _
  apply Finishes.of_error
  intro t t' s trees code env' m' m₁' d' hk hcode hall
  obtain ⟨code₁, t₁, hyes, hcode⟩ := Compiling.bind_eq_ok_iff.1 hcode
  obtain ⟨code₂, t₂, hno, hcode⟩ := Compiling.bind_eq_ok_iff.1 hcode
  obtain ⟨rfl, -⟩ := Compiling.pure_eq_ok_iff.1 hcode
  obtain ⟨test', rfl⟩ := List.length_eq_one_iff.1 hk
  exact Expr.ends_cond_error hall.of_single

/-! ### Definitions -/

/-- A definition is followed when its tree is. -/
theorem define {y : Symbol} {e : Expr} {v : Value} (hn : (Expr.define y e).Needs inner)
    (he : Expr.AllFollowed own G U inner [e] env last m (.ok [v]) last₁ m₁)
    (hy : (Run.define y v).Gives m₁ (.ok ()) m₂) :
  (Expr.define y e).Followed own G U inner env last m (.ok (.value v)) last₁ m₂
  := by
  intro W m' env' wrap t t' s code x hs hfit hm hlast htake hcode
  rw [handOver_of_needs hs hn, lower] at hcode
  refine he hs hfit hm hlast htake ?_ .nil (fun _ _ => Compiling.grows_pure _) ?_ hcode
  · intro d hd
    cases hd
  apply Finishes.of_ok
  intro W' t t' s trees code env' wrap m' m₁' vs' hW hs hk hfit hcode hall hvs hm₁ hlast
  obtain ⟨rfl, -⟩ := Compiling.pure_eq_ok_iff.1 hcode
  obtain _ | ⟨hv, _ | _⟩ := hvs
  obtain ⟨e', rest, rfl⟩ := hall.exists_cons
  obtain _ | ⟨he', _ | _⟩ := hall
  obtain ⟨W'', r', m₂', hW', ⟨-⟩, hm₂, hy'⟩ :=
    Run.Agree.gives (R := fun _ => Eq) (fun _ _ => Run.Agree.define y hv.linked)
      (fun _ _ _ h => h) hy hm₁
  exact .send (r := .ok v) (htake.mono hW) hfit.success.lookup hW' (.ok (hv.mono hW')) hm₂
    (hlast.mono hW') (Expr.ends_define he' hy')

/-- A definition whose tree raises a condition is followed. -/
theorem define_error {y : Symbol} {e : Expr} (hn : (Expr.define y e).Needs inner)
    (he : Expr.AllFollowed own G U inner [e] env last m (.error d) last₁ m₁) :
  (Expr.define y e).Followed own G U inner env last m (.error d) last₁ m₁
  := by
  intro W m' env' wrap t t' s code x hs hfit hm hlast htake hcode
  rw [handOver_of_needs hs hn, lower] at hcode
  refine he hs hfit hm hlast htake ?_ .nil (fun _ _ => Compiling.grows_pure _) ?_ hcode
  · rintro c ⟨⟩
    exact ⟨rfl, rfl, rfl⟩
  intro W' t t' s trees code env' wrap m m' hW hs hk hfit hcode hkept hm hlast
  obtain ⟨rfl, -⟩ := Compiling.pure_eq_ok_iff.1 hcode
  obtain ⟨e', rfl⟩ := List.length_eq_one_iff.1 hk
  obtain ⟨W'', r', m₁', hW', _ | ⟨hd⟩, hm₁, hall⟩ := hkept.allEnd (le_refl W') hfit.alike hm
  exact .send (r := .error d) (htake.mono hW) hfit.success.lookup hW' (.error hd) hm₁
    (hlast.mono hW') (Expr.ends_define_error hall.of_single)

end Expr.Followed

end Skein
