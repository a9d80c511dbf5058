import Skein.Proofs.EmptiedLevels
import Skein.Proofs.Stints

/-!
# Who calls a continuation

Inside of a level nothing comes of the call of a continuation but that some work waits there, and
that the state of an execution has changed.  Outside of every level the work is done in a level of
its own, with all the work that comes to wait there.  Either way the one who has called the
continuation is in the same dynamic context afterwards, as long as all work that is done meanwhile
is that of suspended calls and of callbacks that return a value at once.
-/

namespace Skein

open Run Trampoline

variable {m m' : Machine} {r : Ended Value} {c fuel : Nat} {g : Native Value} {v : Value}

/-! ### What is done by a call -/

/-- A continuation is called: its work waits in the innermost level; or it is done in a level of its
own, with the work that comes to wait in this level. -/
inductive Native.Continues (g : Native Value) (v : Value) (m : Machine) :
    List Work → Machine → Prop where
  | waits {work : Work} {m₁ : Machine} (hgoes : g.GoesOn m v work m₁) (hl : m.levels ≠ []) :
    Continues g v m [] { m₁ with levels := Level.queueing [work] m.levels }
  | done {work : Work} {m₁ m₂ m₃ : Machine} {result : Ended Value} {as : List Attempted} {c : Nat}
    (hgoes : g.GoesOn m v work m₁) (hl : m.levels = [])
    (hends : (Launch.work work).Ends { m₁ with levels := [⟨[], 0⟩] } result m₂)
    (hempties : Empties (Value.call c) m₂ as m₃) :
    Continues g v m (work :: as.map (·.work)) { m₃ with levels := [] }

/-- A function of one argument that returns a value at once, whatever it is called with. -/
def Value.ReturnsPlainly (f : Value) : Prop :=
  ∀ v m r m', f.CallEnds [v] m r m' → ∃ w, r = .ok w ∧ w.isThunk = false

/-- Work of a suspended call, or of a callback that returns a value at once. -/
inductive Work.Quiet : Work → Prop where
  | resumption (snapshot : Context Value) (k arg : Value) : Quiet (.resumption snapshot k arg)
  | delivery (snapshot : Context Value) {f : Value} (arg : Value) (hf : f.ReturnsPlainly) :
    Quiet (.delivery snapshot f arg)

/-- Quiet work leaves the context as it is. -/
theorem Work.Quiet.context {work : Work} (hq : work.Quiet)
    (h : (perform (Value.call c) work >>= force (Value.call c) fuel).Gives m r m') :
  m'.context = m.context
  := by
  cases hq with
  | resumption snapshot k arg => exact (resumption_ignores snapshot k arg c fuel m r m' h).1
  | @delivery snapshot f arg hf =>
    obtain ⟨w, m₁, hperform, hforce⟩ | ⟨d, -, hperform⟩ := gives_bind_iff.1 h
    · obtain ⟨m₂, hcall, rfl⟩ := gives_entering_iff.1 hperform
      obtain ⟨_, hw, hplain⟩ := hf _ _ _ _ (Value.callEnds_of_gives c hcall)
      cases hw
      have hvalue : w.Contained := .inl hplain
      exact (force_ignores hvalue _ _ _ hforce).1
    · obtain ⟨m₂, -, rfl⟩ := gives_entering_iff.1 hperform
      rfl

/-- Emptying a level of quiet work leaves the context as it is. -/
theorem Trampoline.Empties.context {as : List Attempted} (h : Empties (Value.call c) m as m')
    (hq : ∀ a ∈ as, a.work.Quiet) :
  m'.context = m.context
  := by
  induction h with
  | none => rfl
  | @next m m₁ m₂ a as fuel queue steps levels hl hdone hrest ih =>
    have hcontext := ih fun b hb => hq b (List.mem_cons_of_mem a hb)
    obtain ⟨_, m₃, hstep, hwork⟩ | ⟨d, -, hstep⟩ := gives_bind_iff.1 hdone
    · have hbefore := (IgnoresContext.step _ _ _ hstep).1
      have hafter := (hq a List.mem_cons_self).context hwork
      exact hcontext.trans (hafter.trans hbefore)
    · exact hcontext.trans (IgnoresContext.step _ _ _ hstep).1

/-- A continuation that is called leaves the context of the caller as it was, when all the work that
is done meanwhile is quiet. -/
theorem Native.Continues.context {works : List Work} (h : g.Continues v m works m')
    (hq : ∀ work ∈ works, work.Quiet) :
  m'.context = m.context
  := by
  cases h with
  | waits hgoes hl => exact hgoes.unchanged.2
  | @done work m₁ m₂ m₃ result as c hgoes hl hends hempties =>
    obtain ⟨fuel, hgives⟩ := hends.gives
    have hfirst := (hq work List.mem_cons_self).context hgives
    have hrest := hempties.context fun a ha =>
      hq a.work (List.mem_cons_of_mem work (List.mem_map_of_mem ha))
    exact hrest.trans (hfirst.trans hgoes.unchanged.2)

end Skein
