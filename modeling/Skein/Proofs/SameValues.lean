import Skein.Value.Equality
import Mathlib.Data.List.Forall2

/-!
# Equality of values without floats

On the values without floats, equality is an equivalence relation.  With floats it is none: two
integers may equal the same float, and a float need not equal itself.

A value has a head, which is what tells it from the values that it never equals, and parts.  Values
without floats are equal when their heads are the same and their parts are equal one by one.  Lists
and vectors have the same head, so that one may equal the other at every depth.
-/

namespace Skein

/-- What values that are equal have in common, apart from their parts. -/
inductive Value.Head where
  | scalar (s : Scalar)
  | sequence
  | closure (id : Nat)
  | native (identity : Native.Identity)
  | condition (kind : ConditionKind) (message : String)
  | thunk (id : Nat)
  | atom (location : Nat)
  | execution (id : Nat)

namespace Value

/-- The head of a value. -/
def head : Value → Head
  | scalar s => .scalar s
  | list _ | vector _ => .sequence
  | closure id .. => .closure id
  | native f => .native f.identity
  | condition c => .condition c.kind c.message
  | thunk id _ => .thunk id
  | atom location => .atom location
  | execution id => .execution id

/-- The parts of a value that are compared. -/
def parts : Value → List Value
  | list items | vector items => items
  | condition c => [c.data]
  | _ => []

/-- A value contains no float.  What a function has captured is no part of it. -/
inductive FloatFree : Value → Prop where
  | intro {v : Value} (hhead : ∀ x, v.head ≠ .scalar (.float x))
    (hparts : ∀ x ∈ v.parts, FloatFree x) : FloatFree v

/-! ### What equal values have in common -/

/-- Scalars that are no floats are equal when they are the same. -/
theorem same_scalar_iff {s t : Scalar} (hs : ∀ x, s ≠ .float x) (ht : ∀ x, t ≠ .float x) :
  s.same t = true ↔ s = t
  := by
  cases s with
  | float x => exact absurd rfl (hs x)
  | _ =>
    cases t with
    | float x => exact absurd rfl (ht x)
    | _ => simp [Scalar.same]

/-- Sequences of elements are equal when their elements are, one by one. -/
theorem sameAll_iff {as bs : List Value} :
  sameAll as bs = true ↔ List.Forall₂ (same · ·) as bs
  := by
  induction as generalizing bs with
  | nil => cases bs <;> simp [sameAll]
  | cons a as ih => cases bs <;> simp [sameAll, ih]

/-- Values that are no floats are equal when they have the same head and their parts are equal. -/
theorem same_iff {a b : Value} (ha : ∀ x, a.head ≠ .scalar (.float x))
    (hb : ∀ x, b.head ≠ .scalar (.float x)) :
  same a b ↔ a.head = b.head ∧ List.Forall₂ (same · ·) a.parts b.parts
  := by
  cases a with
  | scalar s =>
    cases b with
    | scalar t =>
      have hs : ∀ x, s ≠ .float x := fun x h => ha x (congrArg _ h)
      have ht : ∀ x, t ≠ .float x := fun x h => hb x (congrArg _ h)
      simp [same, head, parts, same_scalar_iff hs ht]
    | _ => simp [same, head]
  | _ => cases b <;> simp [same, head, parts, sameAll_iff, and_assoc]

namespace FloatFree

/-- A value without floats is no float. -/
theorem head_ne {v : Value} (h : v.FloatFree) :
  ∀ x, v.head ≠ .scalar (.float x)
  := by
  cases h with
  | intro hhead => exact hhead

/-- The parts of a value without floats have none. -/
theorem of_mem_parts {v : Value} (h : v.FloatFree) :
  ∀ x ∈ v.parts, x.FloatFree
  := by
  cases h with
  | intro _ hparts => exact hparts

/-! ### An equivalence relation -/

/-- A value without floats equals itself. -/
theorem same_refl {a : Value} (ha : a.FloatFree) :
  same a a
  := by
  induction ha with
  | intro hhead _ ih => exact (same_iff hhead hhead).2 ⟨rfl, List.forall₂_same.2 ih⟩

/-- Parts that are equal one by one are so in the other order. -/
theorem forall₂_symm {as bs : List Value} (hbs : ∀ y ∈ bs, y.FloatFree)
    (hsymm : ∀ x ∈ as, ∀ y, y.FloatFree → same x y → same y x)
    (h : List.Forall₂ (same · ·) as bs) :
  List.Forall₂ (same · ·) bs as
  := by
  induction h with
  | nil => exact .nil
  | cons hxy _ ih =>
    obtain ⟨hy, hbs⟩ := List.forall_mem_cons.1 hbs
    obtain ⟨hx, hsymm⟩ := List.forall_mem_cons.1 hsymm
    exact .cons (hx _ hy hxy) (ih hbs hsymm)

/-- Equality of values without floats is symmetric. -/
theorem same_symm {a b : Value} (ha : a.FloatFree) (hb : b.FloatFree) (h : same a b) :
  same b a
  := by
  induction ha generalizing b with
  | intro hhead _ ih =>
    obtain ⟨heq, hparts⟩ := (same_iff hhead hb.head_ne).1 h
    have hparts' := forall₂_symm hb.of_mem_parts (fun x hx y => ih x hx) hparts
    exact (same_iff hb.head_ne hhead).2 ⟨heq.symm, hparts'⟩

/-- Parts that are equal to parts that are equal to others are equal to those. -/
theorem forall₂_trans {as bs cs : List Value} (hbs : ∀ y ∈ bs, y.FloatFree)
    (hcs : ∀ z ∈ cs, z.FloatFree)
    (htrans : ∀ x ∈ as, ∀ y z, y.FloatFree → z.FloatFree → same x y → same y z → same x z)
    (h : List.Forall₂ (same · ·) as bs) (h' : List.Forall₂ (same · ·) bs cs) :
  List.Forall₂ (same · ·) as cs
  := by
  induction h generalizing cs with
  | nil =>
    cases h'
    exact .nil
  | cons hxy _ ih =>
    obtain ⟨hy, hbs⟩ := List.forall_mem_cons.1 hbs
    obtain ⟨hx, htrans⟩ := List.forall_mem_cons.1 htrans
    cases h' with
    | cons hyz h' =>
      obtain ⟨hz, hcs⟩ := List.forall_mem_cons.1 hcs
      exact .cons (hx _ _ hy hz hxy hyz) (ih hbs hcs htrans h')

/-- Equality of values without floats is transitive. -/
theorem same_trans {a b c : Value} (ha : a.FloatFree) (hb : b.FloatFree) (hc : c.FloatFree)
    (h : same a b) (h' : same b c) :
  same a c
  := by
  induction ha generalizing b c with
  | intro hhead _ ih =>
    obtain ⟨heq, hparts⟩ := (same_iff hhead hb.head_ne).1 h
    obtain ⟨heq', hparts'⟩ := (same_iff hb.head_ne hc.head_ne).1 h'
    have hall := forall₂_trans hb.of_mem_parts hc.of_mem_parts
      (fun x hx y z hy hz => ih x hx hy hz) hparts hparts'
    exact (same_iff hhead hc.head_ne).2 ⟨heq.trans heq', hall⟩

end FloatFree

/-- A value with the head of sequences is a list or a vector of its parts. -/
theorem eq_of_head_sequence {a : Value} (h : a.head = .sequence) :
  a = .list a.parts ∨ a = .vector a.parts
  := by
  cases a with
  | list items => exact .inl rfl
  | vector items => exact .inr rfl
  | _ => cases h

/-- A value with the head of a condition is one that carries its part. -/
theorem eq_of_head_condition {a : Value} {kind : ConditionKind} {message : String}
    (h : a.head = .condition kind message) :
  ∃ data, a = .condition ⟨kind, message, data⟩
  := by
  cases a with
  | condition c =>
    cases h
    exact ⟨c.data, rfl⟩
  | _ => cases h

/-- Values with the same head are of the same type, unless they are sequences. -/
theorem typeName_eq_of_head {a b : Value} (h : a.head = b.head) (hne : a.head ≠ .sequence) :
  a.typeName = b.typeName
  := by
  cases a with
  | list items => exact absurd rfl hne
  | vector items => exact absurd rfl hne
  | _ => cases b <;> simp_all [head, typeName]

/-- Only sequences and conditions have parts. -/
theorem parts_eq_nil {a : Value} (h : a.typeName ∉ ["list", "vector", "condition"]) :
  a.parts = []
  := by
  cases a with
  | list items => exact absurd (by simp [typeName]) h
  | vector items => exact absurd (by simp [typeName]) h
  | condition c => exact absurd (by simp [typeName]) h
  | _ => rfl

/-- Values have the same head and equal parts exactly when they are sequences with equal elements,
conditions with equal kind, message and data, or the same in another variant. -/
theorem matched_iff {a b : Value} :
  a.head = b.head ∧ List.Forall₂ (same · ·) a.parts b.parts ↔
    (∃ as bs, (a = .list as ∨ a = .vector as) ∧ (b = .list bs ∨ b = .vector bs) ∧
      as.length = bs.length ∧ List.Forall₂ (same · ·) as bs) ∨
    (∃ kind message x y, a = .condition ⟨kind, message, x⟩ ∧ b = .condition ⟨kind, message, y⟩ ∧
      same x y) ∨
    (a.typeName = b.typeName ∧ a.typeName ∉ ["list", "vector", "condition"] ∧ a.head = b.head)
  := by
  constructor
  · rintro ⟨heq, hparts⟩
    cases a with
    | list items =>
      exact .inl ⟨_, _, .inl rfl, eq_of_head_sequence heq.symm, hparts.length_eq, hparts⟩
    | vector items =>
      exact .inl ⟨_, _, .inr rfl, eq_of_head_sequence heq.symm, hparts.length_eq, hparts⟩
    | condition c =>
      obtain ⟨y, rfl⟩ := eq_of_head_condition heq.symm
      cases hparts with
      | cons hxy _ => exact .inr (.inl ⟨_, _, _, y, rfl, rfl, hxy⟩)
    | scalar s =>
      have hname := typeName_eq_of_head heq nofun
      exact .inr (.inr ⟨hname, by cases s <;> simp [typeName, Scalar.typeName], heq⟩)
    | _ =>
      have hname := typeName_eq_of_head heq nofun
      exact .inr (.inr ⟨hname, by simp [typeName], heq⟩)
  · rintro (⟨as, bs, ha, hb, -, h⟩ | ⟨kind, message, x, y, rfl, rfl, h⟩ | ⟨hname, hne, heq⟩)
    · rcases ha with rfl | rfl <;> rcases hb with rfl | rfl <;> exact ⟨rfl, h⟩
    · exact ⟨rfl, .cons h .nil⟩
    · rw [parts_eq_nil hne, parts_eq_nil (hname ▸ hne)]
      exact ⟨heq, .nil⟩

/-- Equality is an equivalence relation on the values without floats.  Two of them are equal exactly
when they are sequences of the same length with equal elements, whichever of them are lists or
vectors, conditions with equal kind, message and data, or the same in another variant. -/
theorem same_equivalence_of_floatFree :
  Equivalence (fun a b : {v : Value // v.FloatFree} => same a.1 b.1 = true) ∧
  ∀ a b : {v : Value // v.FloatFree}, same a.1 b.1 = true ↔
    (∃ as bs, (a.1 = .list as ∨ a.1 = .vector as) ∧ (b.1 = .list bs ∨ b.1 = .vector bs) ∧
      as.length = bs.length ∧ List.Forall₂ (same · ·) as bs) ∨
    (∃ kind message x y, a.1 = .condition ⟨kind, message, x⟩ ∧
      b.1 = .condition ⟨kind, message, y⟩ ∧ same x y) ∨
    (a.1.typeName = b.1.typeName ∧ a.1.typeName ∉ ["list", "vector", "condition"] ∧
      a.1.head = b.1.head)
  where
  left := ⟨fun a => a.2.same_refl, fun {a b} => a.2.same_symm b.2,
    fun {a b c} => a.2.same_trans b.2 c.2⟩
  right a b := (same_iff a.2.head_ne b.2.head_ne).trans matched_iff

/-- Equality goes from a list over a vector to another list, whatever the sequences inside of them
are. -/
theorem lists_same_over_vector :
  same (.list [.int 1, .vector [.nil]]) (.list [.int 1, .list [.nil]]) = true
  := by
  have hleaf : ∀ v ∈ [Value.nil], v.FloatFree := List.forall_mem_singleton.2 (.intro nofun nofun)
  have hitems : ∀ {v : Value}, v.FloatFree → ∀ x ∈ [.int 1, v], x.FloatFree := fun hv =>
    List.forall_mem_cons.2 ⟨.intro nofun nofun, List.forall_mem_singleton.2 hv⟩
  have hlist : (Value.list [.nil]).FloatFree := .intro nofun hleaf
  have hvector : (Value.vector [.nil]).FloatFree := .intro nofun hleaf
  let a : {v : Value // v.FloatFree} :=
    ⟨.list [.int 1, .vector [.nil]], .intro nofun (hitems hvector)⟩
  let b : {v : Value // v.FloatFree} :=
    ⟨.vector [.int 1, .list [.nil]], .intro nofun (hitems hlist)⟩
  let c : {v : Value // v.FloatFree} :=
    ⟨.list [.int 1, .list [.nil]], .intro nofun (hitems hlist)⟩
  have hab : same a.1 b.1 = true := rfl
  have hbc : same b.1 c.1 = true := rfl
  exact same_equivalence_of_floatFree.1.trans (x := a) (y := b) (z := c) hab hbc

end Value

end Skein
