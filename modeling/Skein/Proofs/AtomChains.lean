import Skein.Value.Text
import Mathlib.Data.List.Nodup
import Mathlib.Data.List.Perm.Subperm
import Mathlib.Data.List.Range
import Mathlib.Logic.Relation

/-!
# Chains of atoms

The text of an atom contains the text of its contents, and so an atom that is shown inside of
itself has no text: writing it never comes to an end.  Every other value has one.  A chain of atoms
that are shown inside of each other is no longer than there are atoms, unless one of them comes
again, and so the fuel of the writer is no limit for a value that has a text.
-/

namespace Skein

open Relation

variable {h h' : Heap} {l k n : Nat} {v : Value}

/-- The text of a value contains the text of an atom: the value is that atom, or a sequence that
contains it at any depth. -/
inductive Value.Shows (l : Nat) : Value → Prop where
  | atom : Shows l (.atom l)
  | list {items : List Value} {v : Value} (hv : v ∈ items) (h : Shows l v) : Shows l (.list items)
  | vector {items : List Value} {v : Value} (hv : v ∈ items) (h : Shows l v) :
    Shows l (.vector items)

namespace Heap

/-- An atom is shown inside of another one. -/
def Shows (h : Heap) (l k : Nat) : Prop := (h.contents l).Shows k

/-- An atom leads to one that is shown inside of itself. -/
def Endless (h : Heap) (l : Nat) : Prop := ∃ k, ReflTransGen h.Shows l k ∧ TransGen h.Shows k k

/-- Atoms are shown inside of each other from one on, so many that there are `n` below it. -/
def Nests (h : Heap) : Nat → Nat → Prop
  | 0, _ => True
  | n + 1, l => ∃ k, h.Shows l k ∧ h.Nests n k

end Heap

/-- A value leads to an atom that is shown inside of itself. -/
def Value.Endless (h : Heap) (v : Value) : Prop := ∃ l, v.Shows l ∧ h.Endless l

/-! ### Chains of atoms -/

namespace Heap

/-- An atom that shows another one exists. -/
theorem Shows.lt_size (hk : h.Shows l k) :
  l < h.atoms.size
  := by
  by_contra hl
  rw [Shows, contents, Array.getElem?_eq_none (Nat.not_lt.1 hl)] at hk
  cases hk

/-- The atoms of a chain: each one leads to all that follow. -/
theorem Nests.exists_atoms (hn : h.Nests n l) :
  ∃ ls : List Nat, ls.length = n ∧ (∀ k ∈ ls, k < h.atoms.size ∧ ReflTransGen h.Shows l k) ∧
    ls.Pairwise (TransGen h.Shows)
  := by
  induction n generalizing l with
  | zero => exact ⟨[], rfl, fun _ hk => absurd hk List.not_mem_nil, .nil⟩
  | succ n ih =>
    obtain ⟨k, hk, hn⟩ := hn
    obtain ⟨ls, hlength, hmem, hpairs⟩ := ih hn
    refine ⟨l :: ls, congrArg Nat.succ hlength, ?_, ?_⟩
    · refine List.forall_mem_cons.2 ⟨⟨hk.lt_size, .refl⟩, fun j hj => ?_⟩
      exact ⟨(hmem j hj).1, .head hk (hmem j hj).2⟩
    · exact List.pairwise_cons.2 ⟨fun j hj => .head' hk (hmem j hj).2, hpairs⟩

/-- A chain of more atoms than there are comes to one of them again. -/
theorem Nests.endless (hn : h.Nests n l) (hsize : h.atoms.size < n) :
  h.Endless l
  := by
  by_contra hends
  obtain ⟨ls, hlength, hmem, hpairs⟩ := hn.exists_atoms
  -- An atom that comes twice leads to itself, so the atoms of the chain are different ones.
  have hnodup : ls.Nodup := by
    refine hpairs.imp_of_mem fun {j j'} hj _ hjj' heq => ?_
    obtain rfl := heq
    exact hends ⟨j, (hmem j hj).2, hjj'⟩
  have hle : ls.length ≤ (List.range h.atoms.size).length :=
    (hnodup.subperm fun j hj => List.mem_range.2 (hmem j hj).1).length_le
  rw [List.length_range, hlength] at hle
  exact absurd hsize (Nat.not_lt.2 hle)

/-- An endless atom shows an endless atom. -/
theorem Endless.exists_shows (hl : h.Endless l) :
  ∃ k, h.Shows l k ∧ h.Endless k
  := by
  obtain ⟨j, hj, hcycle⟩ := hl
  rcases ReflTransGen.cases_head hj with rfl | ⟨k, hk, hkj⟩
  · obtain ⟨k, hk, hkl⟩ := TransGen.head'_iff.1 hcycle
    exact ⟨k, hk, l, hkl, hcycle⟩
  · exact ⟨k, hk, j, hkj, hcycle⟩

/-- From an endless atom chains are as long as one likes. -/
theorem Endless.nests (hl : h.Endless l) (n : Nat) :
  h.Nests n l
  := by
  induction n generalizing l with
  | zero => trivial
  | succ n ih =>
    obtain ⟨k, hk, hends⟩ := hl.exists_shows
    exact ⟨k, hk, ih hends⟩

end Heap

/-! ### Texts -/

namespace Value

variable {atomText atomText' : Nat → Option String}

mutual

/-- A value has no text exactly when one of the atoms that it shows has none. -/
theorem textWith?_eq_none_iff (executionText : Nat → String) (v : Value) :
  textWith? atomText executionText v = none ↔ ∃ l, v.Shows l ∧ atomText l = none
  := by
  cases v with
  | list items =>
    rw [textWith?, bind_pure_comp, Option.map_eq_map, Option.map_eq_none_iff,
      textsWith?_eq_none_iff executionText items]
    constructor
    · rintro ⟨v, hv, l, hl, hnone⟩
      exact ⟨l, .list hv hl, hnone⟩
    · rintro ⟨l, _ | ⟨hv, hl⟩ | _, hnone⟩
      exact ⟨_, hv, l, hl, hnone⟩
  | vector items =>
    rw [textWith?, bind_pure_comp, Option.map_eq_map, Option.map_eq_none_iff,
      textsWith?_eq_none_iff executionText items]
    constructor
    · rintro ⟨v, hv, l, hl, hnone⟩
      exact ⟨l, .vector hv hl, hnone⟩
    · rintro ⟨l, _ | _ | ⟨hv, hl⟩, hnone⟩
      exact ⟨_, hv, l, hl, hnone⟩
  | atom l =>
    constructor
    · intro hl
      exact ⟨l, .atom, hl⟩
    · rintro ⟨_, ⟨⟩, hl⟩
      exact hl
  | _ =>
    refine iff_of_false nofun ?_
    rintro ⟨_, ⟨⟩, -⟩

/-- Values have no texts exactly when one of the atoms that they show has none. -/
theorem textsWith?_eq_none_iff (executionText : Nat → String) (vs : List Value) :
  textsWith? atomText executionText vs = none ↔ ∃ v ∈ vs, ∃ l, v.Shows l ∧ atomText l = none
  := by
  cases vs with
  | nil =>
    refine iff_of_false nofun ?_
    rintro ⟨_, ⟨⟩, -⟩
  | cons v vs =>
    rw [textsWith?, List.exists_mem_cons_iff, ← textWith?_eq_none_iff executionText v,
      ← textsWith?_eq_none_iff executionText vs]
    cases textWith? atomText executionText v <;> cases textsWith? atomText executionText vs <;> simp

end

mutual

/-- The text of a value depends on the texts of the atoms that it shows. -/
theorem textWith?_congr (executionText : Nat → String) (v : Value)
    (h : ∀ l, v.Shows l → atomText l = atomText' l) :
  textWith? atomText executionText v = textWith? atomText' executionText v
  := by
  cases v with
  | list items =>
    rw [textWith?, textWith?,
      textsWith?_congr executionText items fun v hv l hl => h l (.list hv hl)]
  | vector items =>
    rw [textWith?, textWith?,
      textsWith?_congr executionText items fun v hv l hl => h l (.vector hv hl)]
  | atom l => exact h l .atom
  | _ => rfl

/-- The texts of values depend on the texts of the atoms that they show. -/
theorem textsWith?_congr (executionText : Nat → String) (vs : List Value)
    (h : ∀ v ∈ vs, ∀ l, v.Shows l → atomText l = atomText' l) :
  textsWith? atomText executionText vs = textsWith? atomText' executionText vs
  := by
  cases vs with
  | nil => rfl
  | cons v vs =>
    obtain ⟨hv, hvs⟩ := List.forall_mem_cons.1 h
    rw [textsWith?, textsWith?, textWith?_congr executionText v hv,
      textsWith?_congr executionText vs hvs]

end

/-- The writer gives up at an atom exactly when it comes to more atoms than it may follow. -/
theorem atomText?_eq_none_iff :
  atomText? h n l = none ↔ h.Nests n l
  := by
  induction n generalizing l with
  | zero => exact iff_of_true rfl trivial
  | succ n ih =>
    rw [atomText?, bind_pure_comp, Option.map_eq_map, Option.map_eq_none_iff,
      textWith?_eq_none_iff]
    exact exists_congr fun k => and_congr_right fun _ => ih

/-- The writer writes the same when it may follow more atoms. -/
theorem atomText?_eq_of_le {n' : Nat} (hn : n ≤ n') (hl : ¬h.Nests n l) :
  atomText? h n' l = atomText? h n l
  := by
  induction n generalizing l n' with
  | zero => exact absurd trivial hl
  | succ n ih =>
    obtain ⟨n', rfl⟩ := Nat.exists_eq_add_of_le' (Nat.le_trans (Nat.le_add_left 1 n) hn)
    rw [atomText?, atomText?]
    congr 1
    refine textWith?_congr _ _ fun k hk => ih (Nat.le_of_succ_le_succ hn) fun hnests => ?_
    exact hl ⟨k, hk, hnests⟩

/-- An endless value has no text, however many atoms the writer follows. -/
theorem Endless.textWith?_eq_none (hv : v.Endless h) (n : Nat) :
  textWith? (atomText? h n) h.executionText v = none
  := by
  obtain ⟨l, hl, hends⟩ := hv
  exact (textWith?_eq_none_iff _ v).2 ⟨l, hl, atomText?_eq_none_iff.2 (hends.nests n)⟩

/-- A value that is not endless has one text, whenever the writer may follow more atoms than there
are. -/
theorem exists_text_of_not_endless (hv : ¬v.Endless h) :
  ∃ s, ∀ n > h.atoms.size, textWith? (atomText? h n) h.executionText v = some s
  := by
  have hnests : ∀ l, v.Shows l → ¬h.Nests (h.atoms.size + 1) l := fun l hl hn =>
    hv ⟨l, hl, hn.endless (Nat.lt_succ_self _)⟩
  have hsome : text? h v ≠ none := by
    rw [text?, ne_eq, textWith?_eq_none_iff]
    rintro ⟨l, hl, hnone⟩
    exact hnests l hl (atomText?_eq_none_iff.1 hnone)
  obtain ⟨s, hs⟩ := Option.ne_none_iff_exists'.1 hsome
  refine ⟨s, fun n hn => ?_⟩
  rw [← hs, text?]
  exact textWith?_congr _ v fun l hl => atomText?_eq_of_le hn (hnests l hl)

/-- Which values have a text. -/
theorem text?_eq_none_iff :
  text? h v = none ↔ v.Endless h
  := by
  constructor
  · intro hnone
    by_contra hv
    obtain ⟨s, hs⟩ := exists_text_of_not_endless hv
    have hsome := hs (h.atoms.size + 1) (Nat.lt_succ_self _)
    rw [← text?, hnone] at hsome
    cases hsome
  · intro hv
    exact hv.textWith?_eq_none _

/-- Which values have a text for a reader. -/
theorem plainText?_eq_none_iff :
  plainText? h v = none ↔ v.Endless h
  := by
  unfold plainText?
  split
  · refine iff_of_false nofun ?_
    rintro ⟨_, ⟨⟩, -⟩
  · exact text?_eq_none_iff

end Value

end Skein
