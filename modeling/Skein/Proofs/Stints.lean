import Skein.Proofs.Levels
import Skein.Proofs.Metered.Launch
import Skein.Proofs.WorkOrder

/-!
# Stints of coroutines

Several coroutines can be under way on one machine.  What a coroutine does at a stretch is a stint:
it goes from the start of the coroutine, or from the resumption of an awaited call, to the point
where nothing is left to do but to wait, and it takes place inside of a level of the trampoline.
What it has done then is plain to see on the stage of the coroutine, in the work that it lets wait
and in the state of its execution.

A resumption is done in the context of the suspension, whatever the context is of the one who comes
to it, and that context is left as it was.
-/

namespace Skein

open Run Trampoline

variable {α β : Type} {m m' m₁ m₂ : Machine} {l : Launch} {r s : Ended Value}

/-! ### Launches -/

namespace Trampoline.Launch

/-- What a level is opened for comes to an end, with all the steps of its value. -/
def Ends (l : Launch) (m : Machine) (r : Ended Value) (m' : Machine) : Prop :=
  Eventually fun c f => (l.run (Value.call c) f >>= force (Value.call c) f).Gives m r m'

/-- A launch ends as it does with some amount of fuel. -/
theorem ends_of_gives {c f : Nat}
    (h : (l.run (Value.call c) f >>= force (Value.call c) f).Gives m r m') :
  l.Ends m r m'
  := by
  refine ⟨max c f, fun c' f' hc hf => ?_⟩
  have hcall : Call.Below (Value.call c) (Value.call c') := Value.call_below (by omega)
  have hfuel : f ≤ f' := by omega
  have hbelow := Below.bind (l.run_below hcall hfuel) fun v => force_below hcall hfuel v
  exact hbelow _ _ _ h

/-- A launch ends in one way. -/
theorem Ends.unique (h : l.Ends m r m₁) (h' : l.Ends m s m₂) :
  r = s ∧ m₁ = m₂
  := Eventually.gives_unique h h'

/-- A launch that ends does so with some amount of fuel. -/
theorem Ends.gives (h : l.Ends m r m') :
  ∃ c, (l.run (Value.call c) c >>= force (Value.call c) c).Gives m r m'
  := by
  obtain ⟨n, h⟩ := h
  exact ⟨n, h n n (Nat.le_refl n) (Nat.le_refl n)⟩

/-- All that a launch does to the levels is that it lets work wait in the innermost one. -/
theorem Ends.lets (h : l.Ends m r m') (hlimit : m.limit = none) :
  ∃ works, Machine.Lets works m m'
  := by
  obtain ⟨c, hgives⟩ := h.gives
  have hrun : (l.run (Value.call c) c).Defers := .of_keeps (l.run_keeps Machine.defers_keeping c c)
  exact (hrun.bind force_defers) m r m' hlimit hgives

end Trampoline.Launch

/-! ### Whatever the context -/

/-- A computation comes to the same in every context, and leaves the context as it was. -/
def Run.IgnoresContext (act : Run α) : Prop :=
  ∀ m r m', act.Gives m r m' → m'.context = m.context ∧
    ∀ c, act.Gives { m with context := c } r { m' with context := c }

namespace Run.IgnoresContext

/-- Values ignore the context. -/
theorem pure (a : α) :
  IgnoresContext (Pure.pure a)
  := by
  intro m r m' h
  obtain ⟨rfl, rfl⟩ := h.unique (gives_pure a m)
  exact ⟨rfl, fun c => gives_pure a _⟩

/-- Computations one after another ignore the context, where what the first one gives is `P`. -/
theorem bind {P : α → Prop} {act : Run α} {k : α → Run β} (h : act.IgnoresContext)
    (hpost : ∀ m a m', act.Gives m (.ok a) m' → P a) (hk : ∀ a, P a → (k a).IgnoresContext) :
  (act >>= k).IgnoresContext
  := by
  intro m r m' hbind
  obtain ⟨a, m₁, hact, hrest⟩ | ⟨d, rfl, hact⟩ := gives_bind_iff.1 hbind
  · obtain ⟨hcontext, hany⟩ := h m _ m₁ hact
    obtain ⟨hcontext', hany'⟩ := hk a (hpost _ _ _ hact) m₁ r m' hrest
    exact ⟨hcontext'.trans hcontext, fun c => (hany c).bind (hany' c)⟩
  · obtain ⟨hcontext, hany⟩ := h m _ m' hact
    exact ⟨hcontext, fun c => (hany c).bind_error⟩

/-- A computation in a context of its own ignores the context around it. -/
theorem entering (snapshot : Context Value) (act : Run α) :
  (Run.entering snapshot act).IgnoresContext
  := by
  intro m r m' h
  obtain ⟨m₁, hact, rfl⟩ := gives_entering_iff.1 h
  exact ⟨rfl, fun c => gives_entering_iff.2 ⟨m₁, hact, rfl⟩⟩

/-- Counting a step ignores the context. -/
theorem step :
  Run.step.IgnoresContext
  := by
  intro m r m' h
  let within (c : Context Value) : Machine := { m with context := c }
  obtain hlimit | ⟨limit, hlimit⟩ := Option.eq_none_or_eq_some m.limit
  · obtain ⟨rfl, rfl⟩ := h.unique (gives_step hlimit)
    exact ⟨rfl, fun c => gives_step (m := within c) hlimit⟩
  · unfold Gives at h
    rw [step_of_limit hlimit] at h
    have hstep c : Run.step (within c) = _ := step_of_limit (m := within c) hlimit
    by_cases hl : m.levels = []
    · rw [countTo_nil _ hl] at h
      have hnil c := (hstep c).trans (countTo_nil (m := within c) _ hl)
      cases r <;> cases h
      exact ⟨rfl, hnil⟩
    · obtain ⟨⟨queue, steps⟩, levels, hl⟩ := List.exists_cons_of_ne_nil hl
      rw [countTo_cons _ hl] at h
      have hcons c := (hstep c).trans (countTo_cons (m := within c) _ hl)
      split at h <;> rename_i hsteps
      · cases r <;> cases h
        exact ⟨rfl, fun c => (hcons c).trans (if_pos hsteps)⟩
      · cases r <;> cases h
        exact ⟨rfl, fun c => (hcons c).trans (if_neg hsteps)⟩

/-- Wrapping a value in a context ignores the context around it. -/
theorem inContext (snapshot : Context Value) (v : Value) :
  (Trampoline.inContext snapshot v).IgnoresContext
  := by
  intro m r m' h
  cases v with
  | thunk id f =>
    obtain ⟨rfl, rfl⟩ := h.unique (inContext_thunk snapshot id f m)
    exact ⟨rfl, fun c => inContext_thunk snapshot id f _⟩
  | _ => exact pure _ m r m' h

end Run.IgnoresContext

/-- A value that takes its steps, if it takes some, in a context of its own. -/
def Value.Contained (v : Value) : Prop :=
  v.isThunk = false ∨ ∃ id i snapshot f, v = .thunk id (.native (.inContext i snapshot f))

/-- What is wrapped in a context takes its steps there. -/
theorem Trampoline.inContext_contained {snapshot : Context Value} {v w : Value}
    (h : (inContext snapshot v).Gives m (.ok w) m') :
  w.Contained
  := by
  cases v with
  | thunk id f =>
    obtain ⟨hw, -⟩ := h.unique (inContext_thunk snapshot id f m)
    cases hw
    exact .inr ⟨_, _, _, _, rfl⟩
  | _ =>
    cases h
    exact .inl rfl

/-- Taking steps in contexts of their own ignores the context around them. -/
theorem Trampoline.force_ignores {c fuel : Nat} {v : Value} (hv : v.Contained) :
  (force (Value.call c) fuel v).IgnoresContext
  := by
  induction fuel generalizing v with
  | zero =>
    intro m r m' h
    cases r <;> cases h
  | succ fuel ih =>
    obtain hv | ⟨id, i, snapshot, f, rfl⟩ := hv
    · cases v with
      | thunk id f => cases hv
      | _ => exact .pure _
    · apply Run.IgnoresContext.bind (P := fun _ => True) .step fun _ _ _ _ => trivial
      intro _ _
      cases c with
      | zero =>
        intro m r m' h
        cases r <;> cases h
      | succ c =>
        have hcall : Value.call (c + 1) (.native (.inContext i snapshot f)) [] =
          (entering snapshot (Value.call c f []) >>= fun next => inContext snapshot next) := rfl
        rw [hcall]
        apply Run.IgnoresContext.bind (P := Value.Contained)
        · exact .bind (P := fun _ => True) (.entering _ _) (fun _ _ _ _ => trivial)
            fun next _ => .inContext snapshot next
        · intro m w m' h
          obtain ⟨next, m₁, -, hw⟩ | ⟨_, hr, _⟩ := gives_bind_iff.1 h
          · exact inContext_contained hw
          · cases hr
        · exact fun w hw => ih hw

/-- A resumption with all the steps of its value ignores the context around it. -/
theorem Trampoline.resumption_ignores (snapshot : Context Value) (k arg : Value) (c fuel : Nat) :
  (perform (Value.call c) (.resumption snapshot k arg) >>= force (Value.call c) fuel).IgnoresContext
  := by
  apply Run.IgnoresContext.bind (P := Value.Contained)
  · exact .bind (P := fun _ => True) (.entering _ _) (fun _ _ _ _ => trivial)
      fun next _ => .inContext snapshot next
  · intro m w m' h
    obtain ⟨next, m₁, -, hw⟩ | ⟨_, hr, _⟩ := gives_bind_iff.1 h
    · exact inContext_contained hw
    · cases hr
  · exact fun w hw => force_ignores hw

/-- A resumption comes to the same in every context, and leaves the context as it was. -/
theorem Trampoline.Launch.Ends.ignoresContext {snapshot : Context Value} {k arg : Value}
    (h : (Launch.work (.resumption snapshot k arg)).Ends m r m') :
  m'.context = m.context ∧ ∀ c, (Launch.work (.resumption snapshot k arg)).Ends
    { m with context := c } r { m' with context := c }
  := by
  obtain ⟨fuel, hgives⟩ := h.gives
  obtain ⟨hcontext, hany⟩ := resumption_ignores snapshot k arg fuel fuel m r m' hgives
  exact ⟨hcontext, fun c => Launch.ends_of_gives (hany c)⟩

end Skein
