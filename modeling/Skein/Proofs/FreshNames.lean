import Mathlib.Data.List.Nodup
import Mathlib.Data.List.Perm.Subperm
import Std.Data.String.ToNat
import Skein.Coroutine.Lowering

/-!
# Fresh names

A minted name is new to the table that mints it, whatever names the table holds: of more
counter values than it holds names, one gives a name that it does not hold.  Lowering only
adds names to the table, so that a name stays apart from those that were there before it.
-/

namespace Skein

namespace SymbolTable

/-- Different counter values give different names. -/
theorem spell_injective (stem : String) {n k : Nat} (h : spell stem n = spell stem k) :
  n = k
  := by
  unfold spell at h
  rw [String.append_right_inj] at h
  exact Nat.repr_injective h

/-- When the name that is found is taken, so are the names of all the values that were
tried before it. -/
theorem has_of_has_firstFree (t : SymbolTable) (stem : String) {tries n : Nat}
    (h : t.has (spell stem (t.firstFree stem tries n)) = true) :
  ∀ i ≤ tries, t.has (spell stem (n + 1 + i)) = true
  := by
  induction tries generalizing n with
  | zero =>
    intro i hi
    obtain rfl := Nat.le_zero.1 hi
    exact h
  | succ tries ih =>
    rw [firstFree] at h
    split at h
    · rename_i htaken
      intro i hi
      cases i with
      | zero => exact htaken
      | succ i =>
        have := ih h i (Nat.le_of_succ_le_succ hi)
        rwa [Nat.add_right_comm (n + 1) 1 i] at this
    · rename_i hfree
      exact absurd h hfree

/-- The name that is found is new. -/
theorem not_has_firstFree (t : SymbolTable) (stem : String) (n : Nat) :
  ¬ t.has (spell stem (t.firstFree stem t.size n)) = true
  := by
  intro h
  let tried := (List.range (t.size + 1)).map fun i => spell stem (n + 1 + i)
  have hnodup : tried.Nodup := by
    apply List.Nodup.map _ List.nodup_range
    intro i j hij
    exact Nat.add_left_cancel (spell_injective stem hij)
  have hsubset : tried ⊆ t.names.toList := by
    intro x hx
    obtain ⟨i, hi, rfl⟩ := List.mem_map.1 hx
    have hi := Nat.le_of_lt_succ (List.mem_range.1 hi)
    exact Array.mem_toList_iff.2 (has_eq_true_iff.1 (has_of_has_firstFree t stem h i hi))
  have hle := (List.subperm_of_subset hnodup hsubset).length_le
  simp only [tried, List.length_map, List.length_range, Array.length_toList] at hle
  exact absurd hle (Nat.not_succ_le_self _)

/-- A minted name is new. -/
theorem mint_not_mem (t : SymbolTable) (stem : String) :
  (t.mint stem).1 ∉ t.names
  := by
  intro h
  exact not_has_firstFree t stem t.counter (has_eq_true_iff.2 h)

/-- A minted name is in the table afterwards. -/
theorem mint_mem (t : SymbolTable) (stem : String) :
  (t.mint stem).1 ∈ (t.mint stem).2.names
  := Array.mem_push_self

/-- A table holds at least the names of another one. -/
def Within (t t' : SymbolTable) : Prop := ∀ x ∈ t.names, x ∈ t'.names

/-- A table holds its names. -/
theorem Within.refl (t : SymbolTable) :
  t.Within t
  := fun _ hx => hx

/-- A table holds the names of the tables that it grew from. -/
theorem Within.trans {t t' t'' : SymbolTable} (h : t.Within t') (h' : t'.Within t'') :
  t.Within t''
  := fun x hx => h' x (h x hx)

/-- Minting keeps the names. -/
theorem within_mint (t : SymbolTable) (stem : String) :
  t.Within (t.mint stem).2
  := fun _ hx => Array.mem_push_of_mem _ hx

end SymbolTable

/-! ### Compiling adds names -/

namespace Compiling

variable {α β : Type}

/-- A compilation that has a value succeeds. -/
theorem exists_eq_ok {act : Compiling α} {t : SymbolTable} (h : (act.run' t).isSome = true) :
  ∃ a t', act t = .ok a t'
  := by
  unfold EStateM.run' EStateM.run at h
  cases hact : act t with
  | ok a t' => exact ⟨a, t', rfl⟩
  | error e t' =>
    rw [hact] at h
    cases h

/-- How two steps of a compilation give a result. -/
theorem bind_eq_ok_iff {act : Compiling α} {k : α → Compiling β} {t t'' : SymbolTable} {b : β} :
  (act >>= k) t = .ok b t'' ↔ ∃ a t', act t = .ok a t' ∧ k a t' = .ok b t''
  := by
  change EStateM.bind act k t = _ ↔ _
  unfold EStateM.bind
  constructor
  · intro h
    cases ha : act t with
    | ok a t' =>
      rw [ha] at h
      exact ⟨a, t', rfl, h⟩
    | error e t' =>
      rw [ha] at h
      cases h
  · rintro ⟨a, t', ha, hk⟩
    rw [ha]
    exact hk

/-- What a step without effects gives. -/
theorem pure_eq_ok_iff {t t' : SymbolTable} {a b : α} :
  (pure a : Compiling α) t = .ok b t' ↔ a = b ∧ t = t'
  := by
  change EStateM.Result.ok a t = _ ↔ _
  rw [EStateM.Result.ok.injEq]

/-- What minting gives. -/
theorem fresh_eq_ok_iff {stem : String} {t t' : SymbolTable} {x : Symbol} :
  fresh stem t = .ok x t' ↔ (t.mint stem).1 = x ∧ (t.mint stem).2 = t'
  := by
  change EStateM.Result.ok (t.mint stem).1 (t.mint stem).2 = _ ↔ _
  rw [EStateM.Result.ok.injEq]

/-- A compilation that fails gives no result. -/
theorem throw_ne_ok {e : CompileError} {t t' : SymbolTable} {a : α} :
  (throw e : Compiling α) t ≠ .ok a t'
  := by
  intro h
  cases h

/-- What a step that neither mints names nor interns them gives. -/
theorem ofExcept_eq_ok_iff {r : Except CompileError α} {t t' : SymbolTable} {a : α} :
  ofExcept r t = .ok a t' ↔ r = .ok a ∧ t = t'
  := by
  cases r with
  | ok b =>
    rw [ofExcept, pure_eq_ok_iff, Except.ok.injEq]
  | error e =>
    constructor
    · intro h
      cases h
    · rintro ⟨h, _⟩
      cases h

/-- A minted name: it is new, and in the table from then on. -/
theorem fresh_spec {stem : String} {t t' : SymbolTable} {x : Symbol}
    (h : fresh stem t = .ok x t') :
  x ∉ t.names ∧ x ∈ t'.names ∧ t.Within t'
  := by
  obtain ⟨rfl, rfl⟩ := fresh_eq_ok_iff.1 h
  exact ⟨t.mint_not_mem stem, t.mint_mem stem, t.within_mint stem⟩

/-- A compilation that only adds names. -/
def Grows (act : Compiling α) : Prop := ∀ t a t', act t = .ok a t' → t.Within t'

/-- A step without effects adds no names. -/
theorem grows_pure (a : α) :
  Grows (pure a)
  := by
  intro t b t' h
  obtain ⟨_, rfl⟩ := pure_eq_ok_iff.1 h
  apply SymbolTable.Within.refl

/-- A failure adds no names. -/
theorem grows_throw (e : CompileError) :
  Grows (throw e : Compiling α)
  := by
  intro t b t' h
  exact absurd h throw_ne_ok

/-- Minting adds a name. -/
theorem grows_fresh (stem : String) :
  Grows (fresh stem)
  := by
  intro t x t' h
  exact (fresh_spec h).2.2

/-- A result that needs no compiling adds no names. -/
theorem grows_ofExcept (r : Except CompileError α) :
  Grows (ofExcept r)
  := by
  intro t b t' h
  obtain ⟨_, rfl⟩ := ofExcept_eq_ok_iff.1 h
  apply SymbolTable.Within.refl

/-- Steps that only add names only add names together. -/
theorem Grows.bind {act : Compiling α} {k : α → Compiling β} (h : Grows act)
    (hk : ∀ a, Grows (k a)) :
  Grows (act >>= k)
  := by
  intro t b t'' hb
  obtain ⟨a, t', ha, hb⟩ := bind_eq_ok_iff.1 hb
  exact (h t a t' ha).trans (hk a t' b t'' hb)

end Compiling

namespace Coroutine

open Compiling
open Skein.Expr (weight weightAll weightBindings weightClauses weightCleanup)

/-- Guarding a body only adds names. -/
theorem guarded_grows (body : Expr) (failure : Symbol) :
  Grows (guarded body failure)
  := (grows_fresh "e").bind fun _ => grows_pure _

/-- Making a function of a body only adds names. -/
theorem receiver_grows (param : Symbol) (body : Expr) (failure : Symbol) :
  Grows (receiver param body failure)
  := (guarded_grows body failure).bind fun _ => grows_pure _

/-- Naming trees only adds names. -/
theorem fixValues_grows (s : Scope) (es : List Expr) :
  Grows (fixValues s es)
  := by
  induction es with
  | nil => exact grows_pure _
  | cons e es ih =>
    rw [fixValues]
    split
    · exact ih.bind fun _ => grows_pure _
    · exact (grows_fresh "t").bind fun _ => ih.bind fun _ => grows_pure _

/-- A re-entry only adds names. -/
theorem reentry_grows (head : Head) (s : Scope) (values : List Expr) :
  Grows (reentry head s values)
  := (fixValues_grows s values).bind fun _ => grows_pure _

mutual

/-- Handing over the value of a tree only adds names. -/
theorem handOver_grows (table : Table) (s : Scope) (e : Expr) :
  Grows (handOver table s e)
  := by
  rw [handOver]
  split
  · exact lower_grows table s e
  · exact grows_pure _
termination_by 3 * e.weight + 1

/-- Lowering a tree only adds names. -/
theorem lower_grows (table : Table) (s : Scope) (e : Expr) :
  Grows (lower table s e)
  := by
  cases e with
  | literal d => rw [lower]; exact grows_pure _
  | builtin b => rw [lower]; exact grows_pure _
  | var x => rw [lower]; exact grows_pure _
  | lambda name params body => rw [lower]; exact grows_pure _
  | call f args =>
    rw [lower]
    split
    · exact inOrder_grows table s [] args _ fun _ _ => grows_ofExcept _
    · exact inOrder_grows table s [] (f :: args) _ fun _ _ => grows_pure _
  | cond test yes no =>
    rw [lower]
    apply inOrder_grows table s [] [test]
    intro s' values
    apply (handOver_grows table s' yes).bind
    intro code
    exact (handOver_grows table s' no).bind fun _ => grows_pure _
  | seq es => rw [lower]; exact lowerSeq_grows table s [] es
  | bind bindings body => rw [lower]; exact lowerBindings_grows table s [] bindings (.value body)
  | loop bindings body =>
    rw [lower]
    apply (grows_fresh "loop").bind
    intro name
    apply (handOver_grows table _ body).bind
    intro inner
    apply (guarded_grows inner s.failure).bind
    intro code
    exact (lowerBindings_grows table _ [] bindings (.code _)).bind fun _ => grows_pure _
  | recur args =>
    rw [lower]
    split
    · exact grows_throw _
    · split
      · exact inOrder_grows table s [] args _ fun s' values => reentry_grows _ s' values
      · exact grows_throw _
  | define x e =>
    rw [lower]
    exact inOrder_grows table s [] [e] _ fun _ _ => grows_pure _
  | protect body clauses cleanup =>
    rw [lower]
    split
    · exact handOver_grows table s body
    · apply (lowerCleanup_grows table s cleanup).bind
      intro last
      apply (lowerClauses_grows table _ last clauses).bind
      intro first
      apply (handOver_grows table _ body).bind
      intro code
      exact (guarded_grows code first.failure).bind fun _ => grows_pure _
termination_by 3 * e.weight
decreasing_by
  all_goals
    simp only [weight, weightAll, Tail.weight]
    omega

/-- Code that evaluates trees only adds names when what it ends in does. -/
theorem inOrder_grows (table : Table) (s : Scope) (values es : List Expr)
    (finish : Scope → List Expr → Compiling Expr) (hfinish : ∀ s vs, Grows (finish s vs)) :
  Grows (inOrder table s values es finish)
  := by
  cases es with
  | nil => rw [inOrder]; exact hfinish s values
  | cons e rest =>
    rw [inOrder]
    split
    · exact hfinish s _
    · split
      · apply (grows_fresh "v").bind
        intro v
        apply (inOrder_grows table _ _ rest finish hfinish).bind
        intro body
        apply (grows_fresh "k").bind
        intro k
        apply (receiver_grows v body s.failure).bind
        intro cont
        exact (lower_grows table _ e).bind fun _ => grows_pure _
      · split
        · exact inOrder_grows table s _ rest finish hfinish
        · apply (grows_fresh "t").bind
          intro t
          exact (inOrder_grows table _ _ rest finish hfinish).bind fun _ => grows_pure _
termination_by 3 * weightAll es + 2
decreasing_by
  all_goals
    have := e.weight_pos
    simp only [weightAll]
    omega

/-- Lowering a sequence only adds names. -/
theorem lowerSeq_grows (table : Table) (s : Scope) (before es : List Expr) :
  Grows (lowerSeq table s before es)
  := by
  cases es with
  | nil => rw [lowerSeq]; exact grows_pure _
  | cons e rest =>
    rw [lowerSeq]
    split
    · exact lowerSeq_grows table s _ rest
    · split
      · exact (lower_grows table s e).bind fun _ => grows_pure _
      · apply (grows_fresh "k").bind
        intro k
        apply (grows_fresh "_").bind
        intro ignored
        apply (handOver_grows table _ (.block rest)).bind
        intro after
        apply (receiver_grows ignored after s.failure).bind
        intro cont
        exact (lower_grows table _ e).bind fun _ => grows_pure _
termination_by 3 * weightAll es + 2
decreasing_by
  all_goals
    have := e.weight_pos
    have := Expr.weight_block_le rest
    simp only [weightAll]
    omega

/-- Lowering bindings only adds names. -/
theorem lowerBindings_grows (table : Table) (s : Scope) (before bindings : List (Symbol × Expr))
    (tail : Tail) :
  Grows (lowerBindings table s before bindings tail)
  := by
  match bindings with
  | [] =>
    cases tail with
    | value body =>
      rw [lowerBindings]
      exact (handOver_grows table s body).bind fun _ => grows_pure _
    | code code => rw [lowerBindings]; exact grows_pure _
  | (x, e) :: rest =>
    rw [lowerBindings]
    split
    · apply (lowerBindings_grows table _ [] rest tail).bind
      intro after
      apply (grows_fresh "k").bind
      intro k
      apply (receiver_grows x after s.failure).bind
      intro cont
      exact (lower_grows table _ e).bind fun _ => grows_pure _
    · exact lowerBindings_grows table _ _ rest tail
termination_by 3 * (weightBindings bindings + tail.weight) + 2
decreasing_by
  all_goals
    simp only [weightBindings, Tail.weight]
    grind [Expr.weight_pos]

/-- Lowering a cleanup only adds names. -/
theorem lowerCleanup_grows (table : Table) (s : Scope) (cleanup : Option Expr) :
  Grows (lowerCleanup table s cleanup)
  := by
  cases cleanup with
  | none => rw [lowerCleanup]; exact grows_pure _
  | some e =>
    rw [lowerCleanup]
    apply (grows_fresh "k").bind
    intro success
    apply (grows_fresh "v").bind
    intro v
    apply (handOver_grows table _ _).bind
    intro onValue
    apply (receiver_grows v onValue s.failure).bind
    intro successCont
    apply (grows_fresh "f").bind
    intro failure
    apply (grows_fresh "e").bind
    intro err
    apply (handOver_grows table _ _).bind
    intro onError
    exact (receiver_grows err onError s.failure).bind fun _ => grows_pure _
termination_by 3 * weightCleanup cleanup + 16
decreasing_by
  all_goals
    simp only [weightCleanup, weight, weightAll, raising, Expr.block]
    omega

/-- Lowering clauses only adds names. -/
theorem lowerClauses_grows (table : Table) (s : Scope) (last : Landing)
    (clauses : List (Clause Expr)) :
  Grows (lowerClauses table s last clauses)
  := by
  rw [lowerClauses]
  split
  · exact grows_pure _
  · apply (grows_fresh "f").bind
    intro failure
    apply (grows_fresh "e").bind
    intro err
    apply (lowerBodies_grows table _ clauses).bind
    intro selected
    exact (receiver_grows err _ last.failure).bind fun _ => grows_pure _
termination_by 3 * weightClauses clauses + 3
decreasing_by
  omega

/-- Lowering the bodies of clauses only adds names. -/
theorem lowerBodies_grows (table : Table) (s : Scope) (clauses : List (Clause Expr)) :
  Grows (lowerBodies table s clauses)
  := by
  match clauses with
  | [] => rw [lowerBodies]; exact grows_pure _
  | ⟨selector, x, e⟩ :: rest =>
    rw [lowerBodies]
    apply (handOver_grows table _ e).bind
    intro code
    exact (lowerBodies_grows table s rest).bind fun _ => grows_pure _
termination_by 3 * weightClauses clauses + 2
decreasing_by
  all_goals
    have := e.weight_pos
    simp only [weightClauses]
    omega

end

/-- Lowering the body of a coroutine only adds names. -/
theorem compile_grows (table : Table) (body : Expr) :
  Grows (compile table body)
  := (grows_fresh "k").bind fun _ => (grows_fresh "f").bind fun _ =>
    (handOver_grows table _ body).bind fun _ => grows_pure _

end Coroutine

end Skein
