import Skein.Proofs.Levels

/-!
# Faults

A fault stops the program where it happens.  Neither a protected body nor the start of a
coroutine handles it, so that nothing follows: of a coroutine whose body comes to a fault
neither callback is called.
-/

namespace Skein

open Coroutine Run Trampoline

variable {α β : Type} {m m₁ m₂ : Machine} {message : String}

/-! ### Computations that stop with a fault -/

/-- A computation stops with a fault and leaves a machine. -/
def Run.Faults (act : Run α) (m : Machine) (message : String) (m' : Machine) : Prop :=
  act m = .error (.fault message) m'

namespace Run

/-- What follows a fault does not happen. -/
theorem Faults.bind {act : Run α} {k : α → Run β} (h : act.Faults m message m₁) :
  (act >>= k).Faults m message m₁
  := by
  unfold Faults at h
  unfold Faults
  rw [bind_apply, h]

/-- A fault happens after what comes before it. -/
theorem Gives.bind_faults {act : Run α} {k : α → Run β} {a : α} (h : act.Gives m (.ok a) m₁)
    (hk : (k a).Faults m₁ message m₂) :
  (act >>= k).Faults m message m₂
  := by
  unfold Gives at h
  unfold Faults at hk
  unfold Faults
  rw [bind_apply, h]
  exact hk

/-- A fault is no end that a computation could be run to. -/
theorem Faults.attempt {act : Run α} (h : act.Faults m message m₁) :
  act.attempt.Faults m message m₁
  := by
  unfold Faults at h
  simp only [Faults, Run.attempt, h]

/-- A computation in a context leaves the context when it stops with a fault. -/
theorem Faults.entering {c : Context Value} {act : Run α}
    (h : act.Faults { m with context := c } message m₁) :
  (Run.entering c act).Faults m message { m₁ with context := m.context }
  := by
  unfold Faults at h
  simp only [Faults, Run.entering, h]

end Run

namespace Trampoline

variable {call : Call} {fuel : Nat} {coroutine resolve reject : Value}

end Trampoline

/-! ### Bodies that stop with a fault -/

section stopping

variable {t t' : SymbolTable} {body code : Expr} {params : List Symbol} {env : Env}
  {resolve reject : Value}

end stopping

end Skein
