import Skein.Expr.Suspension
import Skein.Proofs.Alike

/-!
# Parts of trees

The parts of a tree are the tree itself and the parts of its pieces: of its children, and of
the body of a function literal.  A tree mentions the names of the references among its parts.
Looking for a breakpoint inside of function literals goes through all parts, and finds one
exactly when the tree mentions one.

A tree may stand in another one for a variable.  What is found in the other tree is then found
in the same places, unless there is something to be found in the tree that is put there.
-/

namespace Skein

/-- A search of a list depends only on what it makes of the elements. -/
theorem findSome?_congr {α β : Type} {f g : α → Option β} {l : List α}
    (h : ∀ a ∈ l, f a = g a) :
  l.findSome? f = l.findSome? g
  := by
  induction l with
  | nil => rfl
  | cons a l ih =>
    obtain ⟨ha, hl⟩ := List.forall_mem_cons.1 h
    rw [List.findSome?_cons, List.findSome?_cons, ha, ih hl]

namespace Expr

/-! ### Parts -/

/-- The trees that a tree is made of: its children, or the body of a function literal. -/
def pieces : Expr → List Expr
  | lambda _ _ body => [body]
  | e => e.children

/-- A tree is part of another one, at any depth and also inside function literals. -/
inductive PartOf : Expr → Expr → Prop where
  | refl (e : Expr) : PartOf e e
  | piece {c d e : Expr} (h : d ∈ e.pieces) (hc : PartOf c d) : PartOf c e

variable {c d e : Expr} {x : Symbol}

/-- The children of a tree are pieces of it. -/
theorem children_subset_pieces (e : Expr) :
  e.children ⊆ e.pieces
  := by
  cases e with
  | lambda => exact List.nil_subset _
  | _ => exact List.Subset.refl _

/-- The parts of a part. -/
theorem PartOf.trans (hc : c.PartOf d) (hd : d.PartOf e) :
  c.PartOf e
  := by
  induction hd with
  | refl => exact hc
  | piece h _ ih => exact .piece h ih

/-- A child of a tree is part of it. -/
theorem partOf_of_mem_children (h : c ∈ e.children) :
  c.PartOf e
  := .piece (e.children_subset_pieces h) (.refl c)

/-- A part of a tree is the tree or part of a piece of it. -/
theorem partOf_iff :
  c.PartOf e ↔ c = e ∨ ∃ d ∈ e.pieces, c.PartOf d
  := by
  constructor
  · intro h
    cases h with
    | refl => exact .inl rfl
    | piece hd hc => exact .inr ⟨_, hd, hc⟩
  · rintro (rfl | ⟨d, hd, hc⟩)
    · exact .refl c
    · exact .piece hd hc

/-- A tree mentions a name when a reference to it is part of the tree. -/
theorem mentions_iff_partOf :
  e.Mentions x ↔ (var x).PartOf e
  := by
  constructor
  · intro h
    induction h with
    | var => exact .refl _
    | child h _ ih => exact .piece (children_subset_pieces _ h) ih
    | body _ ih => exact .piece List.mem_cons_self ih
  · intro h
    generalize hv : var x = v at h
    induction h with
    | refl =>
      subst hv
      exact .var
    | @piece d e h _ ih =>
      cases e with
      | lambda =>
        obtain rfl := List.mem_singleton.1 h
        exact .body ih
      | _ => exact .child h ih

/-- A tree mentions what its parts mention. -/
theorem PartOf.mentions (h : c.PartOf e) (hx : c.Mentions x) :
  e.Mentions x
  := mentions_iff_partOf.2 ((mentions_iff_partOf.1 hx).trans h)

/-! ### Looking for breakpoints -/

section mentions

variable {p : Symbol → Bool} {inside : Bool}

/-- A tree that reaches a breakpoint mentions it. -/
theorem exists_mentions_of_reaches {e : Expr} (h : e.reaches p = true) :
  ∃ x, p x = true ∧ e.Mentions x
  := by
  rw [reaches_eq, Bool.or_eq_true, List.any_eq_true] at h
  rcases h with h | ⟨c, hc, h⟩
  · obtain ⟨y, hy⟩ := Option.isSome_iff_exists.1 h
    unfold calledBreakpoint? at hy
    split at hy
    · split at hy
      · rename_i z _ hz
        exact ⟨z, hz, .child List.mem_cons_self .var⟩
      · cases hy
    · cases hy
  · obtain ⟨x, hx, hmentions⟩ := exists_mentions_of_reaches h
    exact ⟨x, hx, .child hc hmentions⟩
termination_by e.weight
decreasing_by exact weight_lt_of_mem_children ‹_›

/-- A tree reaches no breakpoint when it calls none and no child reaches one. -/
theorem reaches_eq_false_iff :
  e.reaches p = false ↔ e.calledBreakpoint? p = none ∧ ∀ c ∈ e.children, c.reaches p = false
  := by
  rw [reaches_eq, Bool.or_eq_false_iff, Option.isSome_eq_false_iff, Option.isNone_iff_eq_none,
    List.any_eq_false]
  simp only [Bool.not_eq_true]

/-- A tree with children is no function literal. -/
theorem functionBody?_eq_none_of_mem_children (h : c ∈ e.children) :
  e.functionBody? = none
  := by
  cases e with
  | lambda => exact absurd h List.not_mem_nil
  | _ => rfl

/-- What a search for a breakpoint finds first. -/
theorem firstMention?_eq (p : Symbol → Bool) (inside : Bool) (e : Expr) :
  e.firstMention? p inside =
    match e.functionBody? with
    | some body => body.firstMention? p true
    | none => (if inside then e.mention? p else none) <|>
        e.children.findSome? fun c => c.firstMention? p inside
  := by
  rw [firstMention?]
  split
  · rename_i body h
    rw [h]
  · rename_i h
    rw [h]
    have hattach := List.findSome?_subtype (l := e.children.attach)
      (f := fun a : { c // c ∈ e.children } => a.1.firstMention? p inside)
      (g := fun c => c.firstMention? p inside) fun _ _ => rfl
    rw [List.unattach_attach] at hattach
    exact congrArg (_ <|> ·) hattach

/-- A search in a function literal is one in its body, inside of it. -/
theorem firstMention?_lambda (name : Option Symbol) (params : List Symbol) (body : Expr) :
  (lambda name params body).firstMention? p inside = body.firstMention? p true
  := by
  rw [firstMention?_eq]
  rfl

/-- A search finds nothing in a tree when it finds nothing in its children and the tree itself
is no breakpoint inside of a function literal. -/
theorem firstMention?_eq_none_iff (h : e.functionBody? = none) :
  e.firstMention? p inside = none ↔
    (inside = true → e.mention? p = none) ∧ ∀ c ∈ e.children, c.firstMention? p inside = none
  := by
  rw [firstMention?_eq, h]
  cases inside <;> simp

/-- Inside of function literals a search goes through all parts: it finds a breakpoint exactly
when there is one. -/
theorem firstMention?_inside_eq_none_iff {e : Expr} :
  e.firstMention? p true = none ↔ ∀ x, e.Mentions x → p x = false
  := by
  cases hbody : e.functionBody? with
  | some body =>
    have hweight := weight_lt_of_functionBody? hbody
    cases e with
    | lambda name params _ =>
      cases hbody
      rw [firstMention?_lambda, firstMention?_inside_eq_none_iff (e := body)]
      constructor
      · intro h x hx
        cases hx with
        | child hc => exact absurd hc List.not_mem_nil
        | body hx => exact h x hx
      · exact fun h x hx => h x (.body hx)
    | _ => cases hbody
  | none =>
    rw [firstMention?_eq_none_iff hbody]
    constructor
    · rintro ⟨hmention, hchildren⟩ x hx
      cases hx with
      | var =>
        have hvar := hmention rfl
        rw [mention?, ite_eq_right_iff] at hvar
        exact Bool.eq_false_iff.2 fun h => Option.some_ne_none _ (hvar h)
      | child hc hx =>
        have := weight_lt_of_mem_children hc
        exact firstMention?_inside_eq_none_iff.1 (hchildren _ hc) x hx
      | body => cases hbody
    · intro h
      refine ⟨fun _ => ?_, fun c hc => ?_⟩
      · unfold mention?
        split
        · rename_i x
          rw [h x .var]
          rfl
        · rename_i f args
          unfold calledBreakpoint?
          split
          · rename_i x _ heq
            cases heq
            rw [h x (.child List.mem_cons_self .var)]
            rfl
          · rfl
        · rfl
      · have := weight_lt_of_mem_children hc
        exact firstMention?_inside_eq_none_iff.2 fun x hx => h x (.child hc hx)
termination_by e.weight

/-- What is not found inside of a function literal is not found outside of it. -/
theorem firstMention?_eq_none {e : Expr} (h : ∀ x, e.Mentions x → p x = false)
    (inside : Bool) :
  e.firstMention? p inside = none
  := by
  cases hbody : e.functionBody? with
  | some body =>
    have hinside := firstMention?_inside_eq_none_iff.2 h
    rw [firstMention?_eq, hbody] at hinside ⊢
    exact hinside
  | none =>
    refine (firstMention?_eq_none_iff hbody).2 ⟨?_, fun c hc => ?_⟩
    · rintro rfl
      exact ((firstMention?_eq_none_iff hbody).1 (firstMention?_inside_eq_none_iff.2 h)).1 rfl
    · have := weight_lt_of_mem_children hc
      exact firstMention?_eq_none (fun x hx => h x (.child hc hx)) inside
termination_by e.weight

end mentions

/-! ### A tree in the place of a variable -/

mutual

/-- A tree in which another one stands in the place of a variable. -/
def fill (x : Symbol) (c : Expr) : Expr → Expr
  | literal d => literal d
  | builtin b => builtin b
  | var y => if y = x then c else var y
  | call f args => call (fill x c f) (fillAll x c args)
  | cond test yes no => cond (fill x c test) (fill x c yes) (fill x c no)
  | seq es => seq (fillAll x c es)
  | bind bs body => bind (fillBindings x c bs) (fill x c body)
  | loop bs body => loop (fillBindings x c bs) (fill x c body)
  | recur args => recur (fillAll x c args)
  | protect body clauses cleanup =>
    protect (fill x c body) (fillClauses x c clauses) (fillCleanup x c cleanup)
  | define y e => define y (fill x c e)
  | lambda name params body => lambda name params (fill x c body)

/-- Trees in which another one stands in the place of a variable. -/
def fillAll (x : Symbol) (c : Expr) : List Expr → List Expr
  | [] => []
  | e :: es => fill x c e :: fillAll x c es

/-- Bindings in whose initial values a tree stands in the place of a variable. -/
def fillBindings (x : Symbol) (c : Expr) : List (Symbol × Expr) → List (Symbol × Expr)
  | [] => []
  | (y, e) :: bs => (y, fill x c e) :: fillBindings x c bs

/-- Clauses in whose bodies a tree stands in the place of a variable. -/
def fillClauses (x : Symbol) (c : Expr) : List (Clause Expr) → List (Clause Expr)
  | [] => []
  | ⟨selector, y, e⟩ :: cs => ⟨selector, y, fill x c e⟩ :: fillClauses x c cs

/-- A cleanup in which a tree stands in the place of a variable. -/
def fillCleanup (x : Symbol) (c : Expr) : Option Expr → Option Expr
  | none => none
  | some e => some (fill x c e)

end

/-- Every tree of a list is filled. -/
theorem fillAll_eq_map (es : List Expr) :
  fillAll x c es = es.map (fill x c)
  := by
  induction es with
  | nil => rfl
  | cons e es ih => rw [fillAll, ih, List.map_cons]

/-- Every initial value is filled. -/
theorem map_snd_fillBindings (bs : List (Symbol × Expr)) :
  (fillBindings x c bs).map (·.2) = (bs.map (·.2)).map (fill x c)
  := by
  induction bs with
  | nil => rfl
  | cons b bs ih => rw [fillBindings, List.map_cons, ih, List.map_cons, List.map_cons]

/-- The body of every clause is filled. -/
theorem map_body_fillClauses (cs : List (Clause Expr)) :
  (fillClauses x c cs).map (·.body) = (cs.map (·.body)).map (fill x c)
  := by
  induction cs with
  | nil => rfl
  | cons clause cs ih => rw [fillClauses, List.map_cons, ih, List.map_cons, List.map_cons]

/-- A cleanup is filled. -/
theorem toList_fillCleanup (cleanup : Option Expr) :
  (fillCleanup x c cleanup).toList = cleanup.toList.map (fill x c)
  := by
  cases cleanup <;> rfl

/-- The children of a tree are filled. -/
theorem children_fill (h : e ≠ var x) :
  (fill x c e).children = e.children.map (fill x c)
  := by
  cases e with
  | var y =>
    have hy : y ≠ x := fun hy => h (congrArg var hy)
    rw [fill, if_neg hy]
    rfl
  | bind bs body | loop bs body =>
    rw [fill, children, children, map_snd_fillBindings, List.map_append, List.map_singleton]
  | protect body clauses cleanup =>
    rw [fill, children, children, map_body_fillClauses, toList_fillCleanup, List.map_append,
      List.map_cons]
  | _ => simp only [fill, children, fillAll_eq_map, List.map_cons, List.map_nil]

/-- The body of a function literal is filled. -/
theorem functionBody?_fill (h : e ≠ var x) :
  (fill x c e).functionBody? = e.functionBody?.map (fill x c)
  := by
  cases e with
  | var y =>
    have hy : y ≠ x := fun hy => h (congrArg var hy)
    rw [fill, if_neg hy]
    rfl
  | _ => rfl

/-- What is found where a tree stands in the place of a variable. -/
def Violation.fill (x : Symbol) (c : Expr) (v : Violation) : Violation :=
  ⟨v.op, Expr.fill x c v.form⟩

section fill

variable {p : Symbol → Bool} (hx : p x = false) (hc : ∀ y, c.Mentions y → p y = false)
include hx hc

/-- A call is one of a breakpoint when it was one of a breakpoint. -/
theorem calledBreakpoint?_fill (f : Expr) (args : List Expr) :
  (fill x c (call f args)).calledBreakpoint? p = (call f args).calledBreakpoint? p
  := by
  cases f with
  | var y =>
    rw [fill, fill]
    split
    · rename_i hy
      subst hy
      have hnone : (call (var y) args).calledBreakpoint? p = none := by
        rw [calledBreakpoint?, hx]
        rfl
      rw [hnone]
      unfold calledBreakpoint?
      split
      · rename_i z _ heq
        cases heq
        rw [hc z .var]
        rfl
      · rfl
    · rfl
  | _ => rfl

/-- A tree that does not stand for the variable mentions what it mentioned itself. -/
theorem mention?_fill (h : e ≠ var x) :
  (fill x c e).mention? p = (e.mention? p).map (Violation.fill x c)
  := by
  cases e with
  | var y =>
    have hy : y ≠ x := fun hy => h (congrArg var hy)
    have hfill : fill x c (var y) = var y := by rw [fill, if_neg hy]
    rw [hfill, mention?]
    split
    · rw [Option.map_some, Violation.fill, hfill]
    · rfl
  | call f args =>
    have hcalled := calledBreakpoint?_fill hx hc f args
    rw [fill] at hcalled
    rw [fill, mention?, mention?, hcalled, Option.map_map]
    rfl
  | _ => rfl

/-- A search finds what it found before, where a tree that mentions no breakpoint stands in
the place of a variable. -/
theorem firstMention?_fill (inside : Bool) (e : Expr) :
  (fill x c e).firstMention? p inside = (e.firstMention? p inside).map (Violation.fill x c)
  := by
  by_cases hvar : e = var x
  · subst hvar
    have hnone : (var x).firstMention? p inside = none := by
      apply firstMention?_eq_none
      rintro y (_ | ⟨hc, -⟩)
      · exact hx
      · exact absurd hc List.not_mem_nil
    rw [hnone, fill, if_pos rfl]
    exact firstMention?_eq_none hc inside
  · rw [firstMention?_eq, firstMention?_eq, functionBody?_fill hvar]
    cases hbody : e.functionBody? with
    | some body =>
      have := weight_lt_of_functionBody? hbody
      exact firstMention?_fill true body
    | none =>
      have hchildren : (fill x c e).children.findSome? (fun d => d.firstMention? p inside) =
          (e.children.findSome? fun d => d.firstMention? p inside).map (Violation.fill x c) := by
        rw [children_fill hvar, List.findSome?_map, List.map_findSome?]
        apply findSome?_congr
        intro d hd
        have := weight_lt_of_mem_children hd
        exact firstMention?_fill inside d
      rw [Option.map_none, hchildren, mention?_fill hx hc hvar]
      cases inside with
      | true => cases e.mention? p <;> rfl
      | false => rfl
termination_by e.weight

/-- A tree in which a tree that mentions no breakpoint stands in the place of a variable has
the violations that it had before. -/
theorem violation?_fill (e : Expr) :
  (fill x c e).violation? p = (e.violation? p).map (Violation.fill x c)
  := firstMention?_fill hx hc false e

end fill

end Expr

end Skein
