import Mathlib.Algebra.BigOperators.Group.List.Basic
import Mathlib.Algebra.Ring.Nat
import Skein.Coroutine.Lowering
import Skein.Proofs.Parts

/-!
# Places in trees

A tree lies in another one at a place where some names are bound around it: by bindings, as the
parameters or the own name of a function literal, or by a catch clause.  The names are listed
from the innermost one to the outermost one, so that a reference to a name is one to the first
of them that is equal to it.

What is spread over a tree is counted part by part: `sum f` adds up what `f` gives for the parts
of a tree, inside of function literals too.
-/

namespace Skein.Expr

variable {c d e body : Expr} {bs : List (Symbol × Expr)} {clauses : List (Clause Expr)}
  {cleanup : Option Expr} {es : List Expr} {x : Symbol}

/-! ### The names around a piece -/

/-- The initial values of some bindings, each with the names that are bound around it when
those of `Γ` are bound around all of them. -/
def placedBindings (Γ : List Symbol) : List (Symbol × Expr) → List (List Symbol × Expr)
  | [] => []
  | (x, e) :: bs => (Γ, e) :: placedBindings (x :: Γ) bs

/-- The pieces of a tree, each with the names that the tree binds around it. -/
def placed : Expr → List (List Symbol × Expr)
  | bind bs body | loop bs body => placedBindings [] bs ++ [((bs.map (·.1)).reverse, body)]
  | lambda name params body => [(params.reverse ++ name.toList, body)]
  | protect body clauses cleanup =>
    ([], body) :: clauses.map (fun c => ([c.var], c.body)) ++ cleanup.toList.map fun e => ([], e)
  | e => e.children.map fun c => ([], c)

/-- The initial values are those of the bindings. -/
theorem map_snd_placedBindings (Γ : List Symbol) (bs : List (Symbol × Expr)) :
  (placedBindings Γ bs).map (·.2) = bs.map (·.2)
  := by
  induction bs generalizing Γ with
  | nil => rfl
  | cons b bs ih => rw [placedBindings, List.map_cons, List.map_cons, ih]

/-- Names are only added around the pieces. -/
theorem map_snd_placed (e : Expr) :
  e.placed.map (·.2) = e.pieces
  := by
  cases e with
  | bind bs body | loop bs body =>
    rw [placed, List.map_append, map_snd_placedBindings]
    rfl
  | protect body clauses cleanup =>
    simp [placed, pieces, children, Function.comp_def]
  | lambda => rfl
  | _ => simp [placed, pieces, children, Function.comp_def]

/-- More names around some bindings. -/
theorem placedBindings_append (Γ Δ : List Symbol) (bs : List (Symbol × Expr)) :
  placedBindings (Γ ++ Δ) bs = (placedBindings Γ bs).map fun p => (p.1 ++ Δ, p.2)
  := by
  induction bs generalizing Γ with
  | nil => rfl
  | cons b bs ih =>
    rw [placedBindings, placedBindings, List.map_cons, ← ih, List.cons_append]

/-- Bindings after other ones. -/
theorem placedBindings_concat (Γ : List Symbol) (bs ds : List (Symbol × Expr)) :
  placedBindings Γ (bs ++ ds) =
    placedBindings Γ bs ++ placedBindings ((bs.map (·.1)).reverse ++ Γ) ds
  := by
  induction bs generalizing Γ with
  | nil => rfl
  | cons b bs ih =>
    rw [List.cons_append, placedBindings, placedBindings, ih, List.cons_append, List.map_cons,
      List.reverse_cons, List.append_assoc]
    rfl

/-! ### Places -/

/-- A tree lies in another one, which binds some names around it. -/
inductive LiesIn : List Symbol → Expr → Expr → Prop where
  | refl (e : Expr) : LiesIn [] e e
  | piece {Γ Δ : List Symbol} {c d e : Expr} (h : (Δ, d) ∈ e.placed) (hc : LiesIn Γ c d) :
    LiesIn (Γ ++ Δ) c e

variable {Γ Δ : List Symbol}

/-- A piece of a tree lies in it. -/
theorem liesIn_of_mem_placed (h : (Δ, d) ∈ e.placed) :
  d.LiesIn Δ e
  := .piece h (.refl d)

/-- A place in a place. -/
theorem LiesIn.trans (hc : c.LiesIn Γ d) (hd : d.LiesIn Δ e) :
  c.LiesIn (Γ ++ Δ) e
  := by
  induction hd with
  | refl =>
    rw [List.append_nil]
    exact hc
  | piece h _ ih =>
    rw [← List.append_assoc]
    exact .piece h (ih hc)

/-- What lies in a tree is part of it. -/
theorem LiesIn.partOf (h : c.LiesIn Γ e) :
  c.PartOf e
  := by
  induction h with
  | refl => exact .refl _
  | @piece _ _ _ d e h _ ih =>
    apply PartOf.piece _ ih
    rw [← map_snd_placed]
    exact List.mem_map_of_mem h

/-- The initial value of a binding. -/
theorem liesIn_binding_of_mem (h : (Δ, d) ∈ placedBindings [] bs) :
  d.LiesIn Δ (binding bs body)
  := by
  unfold binding
  split
  · rename_i hnil
    rw [List.isEmpty_iff.1 hnil] at h
    exact absurd h List.not_mem_nil
  · exact liesIn_of_mem_placed (List.mem_append_left _ h)

/-- The body of some bindings. -/
theorem liesIn_binding :
  body.LiesIn (bs.map (·.1)).reverse (binding bs body)
  := by
  unfold binding
  split
  · rename_i hnil
    rw [List.isEmpty_iff.1 hnil]
    exact .refl body
  · exact liesIn_of_mem_placed (List.mem_append_right _ List.mem_cons_self)

/-- The value that is bound to one name. -/
theorem value_liesIn_binding :
  e.LiesIn [] (binding [(x, e)] body)
  := liesIn_binding_of_mem List.mem_cons_self

/-- The body of the binding of one name. -/
theorem body_liesIn_binding :
  body.LiesIn [x] (binding [(x, e)] body)
  := @liesIn_binding body [(x, e)]

/-- A tree of a sequence. -/
theorem liesIn_block (h : e ∈ es) :
  e.LiesIn [] (block es)
  := by
  unfold block
  split
  · exact absurd h List.not_mem_nil
  · obtain rfl := List.mem_singleton.1 h
    exact .refl e
  · exact liesIn_of_mem_placed (List.mem_map_of_mem h)

/-- A child of a tree that binds no names. -/
theorem liesIn_of_placed (hplaced : e.placed = e.children.map fun c => ([], c))
    (h : c ∈ e.children) :
  c.LiesIn [] e
  := by
  apply liesIn_of_mem_placed
  rw [hplaced]
  exact List.mem_map_of_mem h

/-- The body of a function literal. -/
theorem liesIn_lambda {name : Option Symbol} {params : List Symbol} :
  body.LiesIn (params.reverse ++ name.toList) (lambda name params body)
  := liesIn_of_mem_placed List.mem_cons_self

/-- The body of a function literal that takes no arguments. -/
theorem liesIn_function :
  body.LiesIn [] (lambda none [] body)
  := @liesIn_lambda body none []

/-! ### Names -/

/-- A piece of a tree weighs less than it. -/
theorem weight_lt_of_mem_pieces (h : d ∈ e.pieces) :
  d.weight < e.weight
  := by
  cases e with
  | lambda name params body =>
    obtain rfl := List.mem_singleton.1 h
    exact weight_lt_of_functionBody? rfl
  | _ => exact weight_lt_of_mem_children h

/-- The names that a tree binds itself, other than the own name of a function literal. -/
def binders : Expr → List Symbol
  | bind bs _ | loop bs _ => bs.map (·.1)
  | lambda _ params _ => params
  | protect _ clauses _ => clauses.map (·.var)
  | _ => []

/-- The own name of a function literal, and its parameters. -/
def header? : Expr → Option (Symbol × List Symbol)
  | lambda (some x) params _ => some (x, params)
  | _ => none

/-- The names that a tree refers to, defines or binds itself. -/
def names : Expr → List Symbol
  | var x | define x _ => [x]
  | e => e.binders ++ (e.header?.map (·.1)).toList

/-- A name is found in a tree: a part of it refers to, defines or binds it. -/
def Contains (e : Expr) (x : Symbol) : Prop := ∃ d : Expr, d.PartOf e ∧ x ∈ d.names

/-- All names that are found in a tree are of some kind. -/
def Over (U : Symbol → Prop) (e : Expr) : Prop := ∀ x, e.Contains x → U x

/-- The names that are found in a part. -/
theorem PartOf.contains (hd : d.PartOf e) (hx : d.Contains x) :
  e.Contains x
  := by
  obtain ⟨c, hc, hx⟩ := hx
  exact ⟨c, hc.trans hd, hx⟩

/-- The names that a part binds are found in the tree. -/
theorem PartOf.contains_of_mem_binders (hd : d.PartOf e) (hx : x ∈ d.binders) :
  e.Contains x
  := by
  refine ⟨d, hd, ?_⟩
  cases d with
  | var | define => cases hx
  | _ => exact List.mem_append_left _ hx

/-- The own name of a function literal is found in the tree. -/
theorem PartOf.contains_of_header {params : List Symbol} (hd : d.PartOf e)
    (hx : d.header? = some (x, params)) :
  e.Contains x
  := by
  refine ⟨d, hd, ?_⟩
  cases d with
  | var | define => cases hx
  | _ =>
    apply List.mem_append_right
    rw [hx]
    exact List.mem_cons_self

/-- The names around initial values are those of the bindings. -/
theorem mem_of_mem_placedBindings {Γ Δ : List Symbol} (h : (Δ, d) ∈ placedBindings Γ bs)
    (hx : x ∈ Δ) :
  x ∈ Γ ∨ x ∈ bs.map (·.1)
  := by
  induction bs generalizing Γ with
  | nil => cases h
  | cons b bs ih =>
    rcases List.mem_cons.1 h with heq | h
    · cases heq
      exact .inl hx
    · rcases ih h with hΓ | hbs
      · exact (List.mem_cons.1 hΓ).elim (fun h => .inr (h ▸ List.mem_cons_self)) .inl
      · exact .inr (List.mem_cons_of_mem _ hbs)

/-- The names around a piece are bound by the tree. -/
theorem contains_of_mem_placed {Δ : List Symbol} (h : (Δ, d) ∈ e.placed) (hx : x ∈ Δ) :
  e.Contains x
  := by
  cases e with
  | bind bs body | loop bs body =>
    apply (PartOf.refl _).contains_of_mem_binders
    rcases List.mem_append.1 h with h | h
    · exact (mem_of_mem_placedBindings h hx).resolve_left List.not_mem_nil
    · cases List.mem_singleton.1 h
      exact List.mem_reverse.1 hx
  | lambda name params body =>
    cases List.mem_singleton.1 h
    rcases List.mem_append.1 hx with hx | hx
    · exact (PartOf.refl _).contains_of_mem_binders (List.mem_reverse.1 hx)
    · cases name with
      | none => cases hx
      | some y =>
        obtain rfl := List.mem_singleton.1 hx
        exact (PartOf.refl _).contains_of_header rfl
  | protect body clauses cleanup =>
    apply (PartOf.refl _).contains_of_mem_binders
    rcases List.mem_cons.1 h with h | h
    · cases h
      cases hx
    · rcases List.mem_append.1 h with h | h
      · obtain ⟨c, hc, heq⟩ := List.mem_map.1 h
        cases heq
        obtain rfl := List.mem_singleton.1 hx
        exact List.mem_map_of_mem hc
      · obtain ⟨c, -, heq⟩ := List.mem_map.1 h
        cases heq
        cases hx
  | _ =>
    obtain ⟨c, -, heq⟩ := List.mem_map.1 h
    cases heq
    cases hx

/-- The names around a part are found in the tree. -/
theorem LiesIn.contains {Γ : List Symbol} (h : c.LiesIn Γ e) :
  ∀ x ∈ Γ, e.Contains x
  := by
  induction h with
  | refl => nofun
  | piece h _ ih =>
    refine List.forall_mem_append.2 ⟨fun x hx => ?_, fun x hx => contains_of_mem_placed h hx⟩
    exact PartOf.contains (liesIn_of_mem_placed h).partOf (ih x hx)

/-- All names that are found in a tree. -/
def allNames (e : Expr) : List Symbol :=
  e.names ++ e.pieces.attach.flatMap fun ⟨d, _⟩ => d.allNames
termination_by e.weight
decreasing_by exact weight_lt_of_mem_pieces ‹_›

/-- The names that are found in a tree are its own and those of its pieces. -/
theorem mem_allNames :
  x ∈ e.allNames ↔ x ∈ e.names ∨ ∃ d ∈ e.pieces, x ∈ d.allNames
  := by
  rw [allNames, List.mem_append, List.mem_flatMap]
  simp

/-- The list of the names that are found in a tree is complete. -/
theorem contains_iff_mem_allNames {e : Expr} :
  e.Contains x ↔ x ∈ e.allNames
  := by
  rw [mem_allNames]
  constructor
  · rintro ⟨d, hd, hx⟩
    rcases partOf_iff.1 hd with rfl | ⟨c, hc, hd⟩
    · exact .inl hx
    · have := weight_lt_of_mem_pieces hc
      exact .inr ⟨c, hc, contains_iff_mem_allNames.1 ⟨d, hd, hx⟩⟩
  · rintro (hx | ⟨d, hd, hx⟩)
    · exact ⟨e, .refl e, hx⟩
    · have := weight_lt_of_mem_pieces hd
      exact PartOf.contains (.piece hd (.refl d)) (contains_iff_mem_allNames.2 hx)
termination_by e.weight

instance Over.decidable (U : Symbol → Prop) [DecidablePred U] (e : Expr) : Decidable (e.Over U) :=
  decidable_of_iff (∀ x ∈ e.allNames, U x)
    (forall_congr' fun _ => imp_congr_left contains_iff_mem_allNames.symm)

/-! ### Counting -/

/-- What a function gives for the parts of a tree, added up. -/
def sum (f : Expr → Nat) (e : Expr) : Nat :=
  f e + (e.pieces.attach.map fun ⟨d, _⟩ => d.sum f).sum
termination_by e.weight
decreasing_by exact weight_lt_of_mem_pieces ‹_›

/-- What a function gives for the parts of some trees, added up. -/
def sumAll (f : Expr → Nat) (es : List Expr) : Nat := (es.map (sum f)).sum

variable {f : Expr → Nat}

/-- The sum for a tree is that for its pieces and what is given for the tree itself. -/
theorem sum_eq (f : Expr → Nat) (e : Expr) :
  e.sum f = f e + sumAll f e.pieces
  := by
  rw [sum, sumAll]
  congr 1
  simp

@[simp]
theorem sumAll_nil : sumAll f [] = 0 := rfl

@[simp]
theorem sumAll_cons : sumAll f (e :: es) = e.sum f + sumAll f es := by
  simp [sumAll]

@[simp]
theorem sumAll_append {ds : List Expr} : sumAll f (es ++ ds) = sumAll f es + sumAll f ds := by
  simp [sumAll]

/-- Nothing counts in a list of trees in which nothing counts. -/
theorem sumAll_eq_zero (h : ∀ e ∈ es, e.sum f = 0) :
  sumAll f es = 0
  := by
  induction es with
  | nil => rfl
  | cons d es ih =>
    obtain ⟨hd, hes⟩ := List.forall_mem_cons.1 h
    rw [sumAll_cons, hd, ih hes]

/-- Nothing counts in a tree whose parts do not count. -/
theorem sum_eq_zero {e : Expr} (h : ∀ d : Expr, d.PartOf e → f d = 0) :
  e.sum f = 0
  := by
  rw [sum_eq, h e (.refl e), Nat.zero_add]
  apply sumAll_eq_zero
  intro d hd
  have := weight_lt_of_mem_pieces hd
  exact sum_eq_zero fun c hc => h c (hc.trans (.piece hd (.refl d)))
termination_by e.weight

end Skein.Expr
