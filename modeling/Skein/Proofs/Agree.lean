import Skein.Proofs.Ending
import Skein.Proofs.LinkedMachine

/-!
# Computations that agree

Two computations agree when they end in the same way on linked machines: both with a value, both
with a condition, or both stopped for the same reason, where more is known.  The operations of the
machine agree on linked arguments, and the ways to combine computations keep them in agreement.
-/

namespace Skein

/-- The results of two computations agree: `R` relates the values.  A computation that is stopped
may leave levels open. -/
inductive Agreed (L : Likeness) (n : Nat) (W : Link) {α β : Type} (R : Link → α → β → Prop) :
    EStateM.Result Stop Machine α → EStateM.Result Stop Machine β → Prop where
  | ok {W' : Link} {a : α} {b : β} {m m' : Machine} (hW : W ≤ W') (h : R W' a b)
    (hm : Machine.Linked L n W' m m') : Agreed L n W R (.ok a m) (.ok b m')
  | raised {W' : Link} {c c' : Condition Value} {m m' : Machine} (hW : W ≤ W')
    (h : Condition.Linked W' c c') (hm : Machine.Linked L n W' m m') :
    Agreed L n W R (.error (.raised c) m) (.error (.raised c') m')
  | fault {W' : Link} {message : String} {k : Nat} {m m' : Machine} (hW : W ≤ W')
    (hm : Machine.Linked L k W' m m') :
    Agreed L n W R (.error (.fault message) m) (.error (.fault message) m')
  | exhausted {W' : Link} {k : Nat} {m m' : Machine} (hW : W ≤ W')
    (hm : Machine.Linked L k W' m m') :
    Agreed L n W R (.error .exhausted m) (.error .exhausted m')

namespace Agreed

variable {L : Likeness} {n : Nat} {W W' : Link} {α β : Type} {R S : Link → α → β → Prop}
  {r : EStateM.Result Stop Machine α} {r' : EStateM.Result Stop Machine β}

/-- Results that agree where more is known agree. -/
theorem of_le (hW : W ≤ W') (h : Agreed L n W' R r r') :
  Agreed L n W R r r'
  := by
  cases h with
  | ok hW' h hm => exact .ok (le_trans hW hW') h hm
  | raised hW' h hm => exact .raised (le_trans hW hW') h hm
  | fault hW' hm => exact .fault (le_trans hW hW') hm
  | exhausted hW' hm => exact .exhausted (le_trans hW hW') hm

end Agreed

namespace Run

variable {L : Likeness} {n : Nat} {W W' : Link} {α β γ δ : Type} {R S : Link → α → β → Prop}
  {T : Link → γ → δ → Prop}

/-- Two computations agree. -/
def Agree (L : Likeness) (n : Nat) (W : Link) (R : Link → α → β → Prop) (act : Run α)
    (act' : Run β) : Prop :=
  ∀ m m', Machine.Linked L n W m m' → Agreed L n W R (act m) (act' m')

/-- The same data. -/
def Same (_ : Link) (a b : α) : Prop := a = b

namespace Agree

/-! ### Combining computations -/

/-- Related values agree. -/
theorem pure {a : α} {b : β} (h : R W a b) :
  Agree L n W R (Pure.pure a) (Pure.pure b)
  := by
  intro m m' hm
  exact .ok (le_refl W) h hm

/-- Continuations that agree on related values keep computations in agreement. -/
theorem bind {act : Run α} {act' : Run β} {k : α → Run γ} {k' : β → Run δ}
    (h : Agree L n W R act act')
    (hk : ∀ W' a b, W ≤ W' → R W' a b → Agree L n W' T (k a) (k' b)) :
  Agree L n W T (act >>= k) (act' >>= k')
  := by
  intro m m' hm
  rw [bind_apply, bind_apply]
  have ha := h m m' hm
  revert ha
  generalize act m = r, act' m' = r'
  rintro (⟨hW, hab, hm⟩ | ⟨hW, hc, hm⟩ | ⟨hW, hm⟩ | ⟨hW, hm⟩)
  · exact (hk _ _ _ hW hab _ _ hm).of_le hW
  · exact .raised hW hc hm
  · exact .fault hW hm
  · exact .exhausted hW hm

/-- Computations agree under a weaker relation. -/
theorem imp {act : Run α} {act' : Run β} (h : Agree L n W R act act')
    (hRS : ∀ W' a b, W ≤ W' → R W' a b → S W' a b) :
  Agree L n W S act act'
  := by
  intro m m' hm
  have ha := h m m' hm
  revert ha
  generalize act m = r, act' m' = r'
  rintro (⟨hW, hab, hm⟩ | ⟨hW, hc, hm⟩ | ⟨hW, hm⟩ | ⟨hW, hm⟩)
  · exact .ok hW (hRS _ _ _ hW hab) hm
  · exact .raised hW hc hm
  · exact .fault hW hm
  · exact .exhausted hW hm

/-- Raising linked conditions agrees. -/
theorem raiseCondition {c c' : Condition Value} (h : Condition.Linked W c c') :
  Agree L n W R (Run.raiseCondition c) (Run.raiseCondition c')
  := by
  intro m m' hm
  exact .raised (le_refl W) h hm

/-- Raising conditions that carry linked values agrees. -/
theorem raiseWith (kind : ConditionKind) (message : String) {v v' : Value}
    (h : Value.Linked W v v') :
  Agree L n W R (Run.raiseWith kind message v) (Run.raiseWith kind message v')
  := raiseCondition (.mk h)

/-- Raising the same condition agrees. -/
theorem raise (kind : ConditionKind) (message : String) :
  Agree L n W R (Run.raise kind message) (Run.raise kind message)
  := raiseWith kind message (.scalar .nil)

/-- Running out of fuel agrees. -/
theorem exhausted :
  Agree L n W R (throw .exhausted) (throw .exhausted)
  := by
  intro m m' hm
  exact .exhausted (le_refl W) hm

/-- The same fault agrees. -/
theorem fault (message : String) :
  Agree L n W R (throw (.fault message)) (throw (.fault message))
  := by
  intro m m' hm
  exact .fault (le_refl W) hm

/-- Running to the end keeps agreement. -/
theorem attempt {act act' : Run Value} (h : Agree L n W Value.Linked act act') :
  Agree L n W Ended.Linked act.attempt act'.attempt
  := by
  intro m m' hm
  rw [Run.attempt, Run.attempt]
  have ha := h m m' hm
  revert ha
  generalize act m = r, act' m' = r'
  rintro (⟨hW, hab, hm⟩ | ⟨hW, hc, hm⟩ | ⟨hW, hm⟩ | ⟨hW, hm⟩)
  · exact .ok hW (.ok hab) hm
  · exact .ok hW (.error hc) hm
  · exact .fault hW hm
  · exact .exhausted hW hm

/-- Linked ends agree. -/
theorem ofExcept {r r' : Except (Condition Value) Value} (h : Ended.Linked W r r') :
  Agree L n W Value.Linked (Run.ofExcept r) (Run.ofExcept r')
  := by
  cases h with
  | ok h => exact pure h
  | error h => exact raiseCondition h

/-- Computations that read the machine agree when they agree on linked machines. -/
theorem get {k : Machine → Run α} {k' : Machine → Run β}
    (hk : ∀ m m', Machine.Linked L n W m m' → Agreed L n W R (k m m) (k' m' m')) :
  Agree L n W R (MonadState.get >>= k) (MonadState.get >>= k')
  := hk

/-- Changes of the machine agree when they keep machines linked. -/
theorem modifyGet {f : Machine → α × Machine} {f' : Machine → β × Machine}
    (h : ∀ m m', Machine.Linked L n W m m' → ∃ W', W ≤ W' ∧ R W' (f m).1 (f' m').1 ∧
      Machine.Linked L n W' (f m).2 (f' m').2) :
  Agree L n W R (MonadStateOf.modifyGet f) (MonadStateOf.modifyGet f')
  := by
  intro m m' hm
  obtain ⟨W', hW, hab, hm⟩ := h m m' hm
  exact .ok hW hab hm

/-- Changes of the machine that give nothing. -/
theorem change {f f' : Machine → Machine}
    (h : ∀ m m', Machine.Linked L n W m m' → Machine.Linked L n W (f m) (f' m')) :
  Agree L n W (Same (α := PUnit)) (modify f) (modify f')
  := by
  intro m m' hm
  exact .ok (le_refl W) rfl (h m m' hm)

end Agree

end Run

end Skein
