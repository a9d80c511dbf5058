import Skein.Proofs.AtomChains
import Skein.Proofs.Faults

/-!
# Values without an end

A value is endless when it leads to an atom that is shown inside of itself.  What writes values
always comes to an end unless one of the values is endless.  Where no value is endless, a change of
the atoms makes one only when an atom is given contents that lead to that atom.
-/

namespace Skein

open Relation

variable {h h' : Heap} {l k : Nat}

/-! ### What writes values -/

namespace Run

variable {α β : Type} {m : Machine}

/-- A computation gives something and leaves the machine as it is, or never comes to an end. -/
structure WritesUnless (act : Run α) (m : Machine) (endless : Prop) : Prop where
  gives : ¬endless → ∃ a, act.Gives m (.ok a) m
  never : endless → act m = .error .exhausted m

/-- A computation comes to an end, or never does. -/
structure EndsUnless (act : Run α) (m : Machine) (endless : Prop) : Prop where
  ends : ¬endless → ∃ r m', act.Gives m r m'
  never : endless → act m = .error .exhausted m

/-- The text of a value. -/
theorem textOf_writes (v : Value) (m : Machine) :
  (textOf v).WritesUnless m (v.Endless m.heap)
  where
  gives hv := by
    obtain ⟨s, hs⟩ := Option.ne_none_iff_exists'.1 fun hnone => hv (Value.text?_eq_none_iff.1 hnone)
    exact ⟨s, by rw [Gives, textOf, hs]⟩
  never hv := by rw [textOf, Value.text?_eq_none_iff.2 hv]

/-- The text of a value for a reader. -/
theorem plainTextOf_writes (v : Value) (m : Machine) :
  (plainTextOf v).WritesUnless m (v.Endless m.heap)
  where
  gives hv := by
    obtain ⟨s, hs⟩ :=
      Option.ne_none_iff_exists'.1 fun hnone => hv (Value.plainText?_eq_none_iff.1 hnone)
    exact ⟨s, by rw [Gives, plainTextOf, hs]⟩
  never hv := by rw [plainTextOf, Value.plainText?_eq_none_iff.2 hv]

/-- The texts of some values for a reader. -/
theorem mapM_plainTextOf_writes (vs : List Value) (m : Machine) :
  (vs.mapM plainTextOf).WritesUnless m (∃ v ∈ vs, v.Endless m.heap)
  := by
  induction vs with
  | nil => exact ⟨fun _ => ⟨[], rfl⟩, fun ⟨_, hv, _⟩ => absurd hv List.not_mem_nil⟩
  | cons v vs ih =>
    have hv := plainTextOf_writes v m
    rw [List.mapM_cons]
    constructor
    · intro hends
      have hcons := List.exists_mem_cons_iff (·.Endless m.heap) v vs
      obtain ⟨s, hs⟩ := hv.gives fun hhead => hends (hcons.2 (.inl hhead))
      obtain ⟨ss, hss⟩ := ih.gives fun hrest => hends (hcons.2 (.inr hrest))
      exact ⟨s :: ss, Gives.bind hs (Gives.bind hss (gives_pure _ m))⟩
    · intro hends
      by_cases hhead : v.Endless m.heap
      · rw [bind_apply, hv.never hhead]
      · obtain ⟨s, hs⟩ := hv.gives hhead
        obtain hends | hends := (List.exists_mem_cons_iff _ v vs).1 hends
        · exact absurd hends hhead
        · unfold Gives at hs
          rw [bind_apply, hs]
          dsimp only
          rw [bind_apply, ih.never hends]

/-- What is done with a text comes to an end. -/
theorem WritesUnless.bind {act : Run α} {k : α → Run β} {endless : Prop}
    (h : act.WritesUnless m endless) (hk : ∀ a, ∃ r m', (k a).Gives m r m') :
  (act >>= k).EndsUnless m endless
  where
  ends hends := by
    obtain ⟨a, ha⟩ := h.gives hends
    obtain ⟨r, m', hr⟩ := hk a
    exact ⟨r, m', Gives.bind ha hr⟩
  never hends := by rw [bind_apply, h.never hends]

/-- Throwing a value. -/
theorem throwValue_endsUnless (v : Value) (m : Machine) :
  (throwValue v : Run α).EndsUnless m (v.Endless m.heap)
  := by
  unfold throwValue thrown
  split
  · refine ⟨fun _ => ⟨_, m, gives_raise _ m⟩, ?_⟩
    rintro ⟨_, ⟨⟩, -⟩
  · refine ⟨fun _ => ⟨_, m, gives_raise _ m⟩, ?_⟩
    rintro ⟨_, ⟨⟩, -⟩
  · rw [bind_assoc]
    exact (textOf_writes v m).bind fun s => ⟨_, m, gives_raise _ m⟩

end Run

/-- The primitive functions that write values. -/
theorem TextOp.call_endsUnless (op : TextOp) (fuel : Nat) (vs : List Value) (m : Machine) :
  (Value.call (fuel + 1) (.native (.primitive (.text op))) vs).EndsUnless m
    (∃ v ∈ vs, v.Endless m.heap)
  := by
  have hcall : Value.call (fuel + 1) (.native (.primitive (.text op))) vs = op.apply vs := by
    cases op <;> rfl
  rw [hcall]
  refine (Run.mapM_plainTextOf_writes vs m).bind fun ss => ?_
  cases op with
  | str => exact ⟨.ok (.string (String.join ss)), m, rfl⟩
  | println => exact ⟨.ok .nil, _, rfl⟩

/-- The primitive function that throws a value. -/
theorem call_throw_endsUnless (fuel : Nat) (v : Value) (m : Machine) :
  (Value.call (fuel + 1) (.native (.primitive (.condition .throw))) [v]).EndsUnless m
    (v.Endless m.heap)
  := Run.throwValue_endsUnless v m

/-- Calling what is no function. -/
theorem Value.call_endsUnless (fuel : Nat) {f : Value} (hf : f.isCallable = false)
    (vs : List Value) (m : Machine) :
  (Value.call (fuel + 1) f vs).EndsUnless m (f.Endless m.heap)
  := by
  have hcall : Value.call (fuel + 1) f vs =
      (do Run.raise .typeError ("cannot call a " ++ f.typeName ++ ": " ++ (← Run.textOf f))) := by
    cases f <;> first | rfl | cases hf
  rw [hcall]
  exact (Run.textOf_writes f m).bind fun s => ⟨_, m, Run.gives_raise _ m⟩

/-! ### Where endless values come from -/

/-- A value leads to an atom: it shows an atom that shows it at any depth. -/
def Value.ComesTo (h : Heap) (v : Value) (l : Nat) : Prop :=
  ∃ k, v.Shows k ∧ ReflTransGen h.Shows k l

namespace Heap

/-- No atom is shown inside of itself. -/
def Acyclic (h : Heap) : Prop := ∀ l, ¬TransGen h.Shows l l

/-- In a heap without cycles no value is endless. -/
theorem acyclic_iff :
  h.Acyclic ↔ ∀ v : Value, ¬v.Endless h
  := by
  constructor
  · rintro hacyclic v ⟨l, -, k, -, hk⟩
    exact hacyclic k hk
  · intro hends l hl
    exact hends (.atom l) ⟨l, .atom, l, .refl, hl⟩

/-- Two heaps have the same atoms, apart from the contents of one. -/
def SameApartFrom (l : Nat) (h h' : Heap) : Prop := ∀ k, k ≠ l → h'.contents k = h.contents k

/-- The way to an atom does not depend on its contents. -/
theorem SameApartFrom.reaches (hh : SameApartFrom l h h') (hk : ReflTransGen h.Shows k l) :
  ReflTransGen h'.Shows k l
  := by
  induction hk using ReflTransGen.head_induction_on with
  | refl => exact .refl
  | @head k j hkj _ ih =>
    by_cases heq : k = l
    · rw [heq]
    · exact .head (by rwa [Shows, hh k heq]) ih

/-- A way is still there, or it comes by the atom with the other contents. -/
theorem SameApartFrom.leads (hh : SameApartFrom l h h') {j : Nat} (hk : TransGen h'.Shows k j) :
  TransGen h.Shows k j ∨ ReflTransGen h'.Shows k l ∧ TransGen h'.Shows l j
  := by
  induction hk using TransGen.head_induction_on with
  | @single k hkj =>
    by_cases heq : k = l
    · rw [heq] at hkj ⊢
      exact .inr ⟨.refl, .single hkj⟩
    · exact .inl (.single (by rwa [Shows, ← hh k heq]))
  | @head k i hki hij ih =>
    by_cases heq : k = l
    · rw [heq] at hki ⊢
      exact .inr ⟨.refl, .head hki hij⟩
    · rcases ih with hij | ⟨hil, hlj⟩
      · exact .inl (.head (by rwa [Shows, ← hh k heq]) hij)
      · exact .inr ⟨.head hki hil, hlj⟩

/-- New contents of an atom make a cycle exactly when they lead to that atom. -/
theorem SameApartFrom.acyclic_iff (hh : SameApartFrom l h h') (hacyclic : h.Acyclic) :
  h'.Acyclic ↔ ¬(h'.contents l).ComesTo h l
  := by
  have hback : SameApartFrom l h' h := fun k hk => (hh k hk).symm
  constructor
  · rintro hacyclic' ⟨k, hk, hkl⟩
    exact hacyclic' l (.head' hk (hh.reaches hkl))
  · intro hleads k hk
    rcases hh.leads hk with hk | ⟨hkl, hlk⟩
    · exact hacyclic k hk
    -- The cycle comes by the atom, and what is shown first inside of it is in the contents.
    · obtain ⟨j, hj, hjl⟩ := TransGen.head'_iff.1 (hlk.trans_left hkl)
      exact hleads ⟨j, hj, hback.reaches hjl⟩

end Heap

/-- Setting an atom makes a cycle exactly when the new contents lead to it. -/
theorem Run.writeAtom_acyclic_iff {m : Machine} (hacyclic : m.heap.Acyclic)
    (hl : l < m.heap.atoms.size) (v : Value) :
  ∃ m', (writeAtom l v).Gives m (.ok ()) m' ∧ (m'.heap.Acyclic ↔ ¬v.ComesTo m.heap l)
  := by
  refine ⟨_, rfl, ?_⟩
  dsimp only
  generalize hh : ({ m.heap with atoms := m.heap.atoms.setIfInBounds l v } : Heap) = h'
  have hcontents : h'.contents l = v := by
    rw [← hh, Heap.contents, Array.getElem?_setIfInBounds_self_of_lt hl]
    rfl
  have hsame : Heap.SameApartFrom l m.heap h' := by
    intro k hk
    rw [← hh, Heap.contents, Heap.contents, Array.getElem?_setIfInBounds_ne hk.symm]
  rw [hsame.acyclic_iff hacyclic, hcontents]

/-- Making an atom makes a cycle exactly when its contents lead to it already. -/
theorem Run.newAtom_acyclic_iff {m : Machine} (hacyclic : m.heap.Acyclic) (v : Value) :
  ∃ m', (newAtom v).Gives m (.ok (.atom m.heap.atoms.size)) m' ∧
    (m'.heap.Acyclic ↔ ¬v.ComesTo m.heap m.heap.atoms.size)
  := by
  refine ⟨_, rfl, ?_⟩
  dsimp only
  generalize hh : ({ m.heap with atoms := m.heap.atoms.push v } : Heap) = h'
  have hcontents : h'.contents m.heap.atoms.size = v := by
    rw [← hh, Heap.contents, Array.getElem?_push_size]
    rfl
  have hsame : Heap.SameApartFrom m.heap.atoms.size m.heap h' := by
    intro k hk
    rw [← hh, Heap.contents, Heap.contents, Array.getElem?_push, if_neg hk]
  rw [hsame.acyclic_iff hacyclic, hcontents]

/-! ### When writing comes to an end -/

/-- Writing a value comes to an end unless the value is endless, in every machine: with a text that
does not depend on how many atoms the writer may follow, and otherwise never, however many it
follows.  The same holds of printing and of joining texts, of throwing a value and of calling what
is no function.  Where no value is endless, setting and making an atom makes one exactly when the
contents lead to that atom. -/
theorem writing_ends_unless_endless (m : Machine) (fuel : Nat) :
  (∀ v : Value, ¬v.Endless m.heap → ∃ s, ∀ n > m.heap.atoms.size,
    v.textWith? (Value.atomText? m.heap n) m.heap.executionText = some s) ∧
  (∀ v : Value, v.Endless m.heap → ∀ n,
    v.textWith? (Value.atomText? m.heap n) m.heap.executionText = none) ∧
  (∀ (op : TextOp) (vs : List Value),
    (Value.call (fuel + 1) (.native (.primitive (.text op))) vs).EndsUnless m
      (∃ v ∈ vs, v.Endless m.heap)) ∧
  (∀ v : Value, (Value.call (fuel + 1) (.native (.primitive (.condition .throw))) [v]).EndsUnless m
    (v.Endless m.heap)) ∧
  (∀ (f : Value) (vs : List Value), f.isCallable = false →
    (Value.call (fuel + 1) f vs).EndsUnless m (f.Endless m.heap)) ∧
  ((∀ v : Value, ¬v.Endless m.heap) →
    (∀ l < m.heap.atoms.size, ∀ v : Value, ∃ m', (Run.writeAtom l v).Gives m (.ok ()) m' ∧
      ((∀ w : Value, ¬w.Endless m'.heap) ↔ ¬v.ComesTo m.heap l)) ∧
    (∀ v : Value, ∃ m', (Run.newAtom v).Gives m (.ok (.atom m.heap.atoms.size)) m' ∧
      ((∀ w : Value, ¬w.Endless m'.heap) ↔ ¬v.ComesTo m.heap m.heap.atoms.size)))
  := by
  refine ⟨fun _ hv => Value.exists_text_of_not_endless hv, fun _ hv => hv.textWith?_eq_none,
    fun op vs => op.call_endsUnless fuel vs m, fun v => call_throw_endsUnless fuel v m,
    fun f vs hf => Value.call_endsUnless fuel hf vs m, fun hends => ⟨fun l hl v => ?_, fun v => ?_⟩⟩
  · obtain ⟨m', hgives, hacyclic⟩ := Run.writeAtom_acyclic_iff (Heap.acyclic_iff.2 hends) hl v
    exact ⟨m', hgives, Heap.acyclic_iff.symm.trans hacyclic⟩
  · obtain ⟨m', hgives, hacyclic⟩ := Run.newAtom_acyclic_iff (Heap.acyclic_iff.2 hends) v
    exact ⟨m', hgives, Heap.acyclic_iff.symm.trans hacyclic⟩

/-- The machine on which an atom has been made and set to itself. -/
def Machine.knotted : Machine := { Machine.empty with heap := ⟨#[.atom 0], #[]⟩ }

/-- An atom that is set to itself is never written. -/
theorem knotted_atom_never_written :
  (do
    let a ← Value.call 1 (.native (.primitive (.atom .make))) [.nil]
    let _ ← Value.call 1 (.native (.primitive (.atom .reset))) [a, a]
    Value.call 1 (.native (.primitive (.text .str))) [a] : Run Value) .empty =
      .error .exhausted .knotted
  := by
  obtain ⟨-, -, hwrites, -⟩ := writing_ends_unless_endless .knotted 0
  have hends : (Value.atom 0).Endless Machine.knotted.heap :=
    ⟨0, .atom, 0, .refl, .single (show (Machine.knotted.heap.contents 0).Shows 0 from .atom)⟩
  exact (hwrites .str [.atom 0]).never ⟨_, List.mem_singleton_self _, hends⟩

end Skein
