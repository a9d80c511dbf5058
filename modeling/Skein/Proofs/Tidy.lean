import Skein.Proofs.Forms
import Skein.Proofs.Regime

/-!
# Tidy trees

A tree is tidy when it leaves the frames of dynamic bindings that it enters, and calls the
functions that enter and leave frames but holds none of them.
-/

namespace Skein

/-! ### Trees and frames -/

namespace Expr

/-- The arguments that a frame is entered with, and the body that is evaluated in it, of a
tree that leaves the frame in any case. -/
def frame? : Expr → Option (List Expr × Expr)
  | bind [(depth, call (builtin .pushBindings) args)]
      (protect body [] (some (call (builtin .popBindings) [var depth']))) =>
    if depth = depth' then some (args, body) else none
  | _ => none

/-- Whether a tree is a function that enters or leaves frames. -/
def movesFrames : Expr → Bool
  | builtin b => b.movesFrames
  | _ => false

/-- A tree that leaves the frame that it enters. -/
theorem frame?_eq_some {e body : Expr} {args : List Expr} (h : e.frame? = some (args, body)) :
  ∃ depth, e = bind [(depth, call (builtin .pushBindings) args)]
    (protect body [] (some (call (builtin .popBindings) [var depth])))
  := by
  unfold frame? at h
  split at h
  · split at h
    · rename_i depth _ _ _ hdepth
      subst hdepth
      cases h
      exact ⟨depth, rfl⟩
    · cases h
  · cases h

/-- The parts of a tree that leaves the frame that it enters weigh less. -/
theorem weight_lt_of_frame? {e body : Expr} {args : List Expr}
    (h : e.frame? = some (args, body)) :
  (∀ a ∈ args, a.weight < e.weight) ∧ body.weight < e.weight
  := by
  obtain ⟨depth, rfl⟩ := frame?_eq_some h
  constructor
  · intro a ha
    have := weight_le_weightAll ha
    simp only [weight, weightBindings]
    omega
  · simp only [weight]
    omega

/-- Whether a tree leaves the frames that it enters.  What the function literals in it do
does not count. -/
def isClosed (e : Expr) : Bool :=
  match _h : e.frame? with
  | some (args, body) => args.attach.all (fun ⟨a, _⟩ => a.isClosed) && body.isClosed
  | none => !e.movesFrames && e.children.attach.all fun ⟨c, _⟩ => c.isClosed
termination_by e.weight
decreasing_by
  · exact (weight_lt_of_frame? _h).1 _ ‹_›
  · exact (weight_lt_of_frame? _h).2
  · exact weight_lt_of_mem_children ‹_›

/-- What a tree is made of that leaves the frames that it enters. -/
theorem isClosed_iff {e : Expr} :
  e.isClosed = true ↔
    (∃ args body, e.frame? = some (args, body) ∧ (∀ a ∈ args, a.isClosed = true) ∧
      body.isClosed = true) ∨
    (e.frame? = none ∧ e.movesFrames = false ∧ ∀ c ∈ e.children, c.isClosed = true)
  := by
  rw [isClosed]
  split
  · rename_i args body h
    simp only [h, Bool.and_eq_true, List.all_eq_true, List.mem_attach, forall_const,
      Subtype.forall, Option.some.injEq, Prod.mk.injEq, reduceCtorEq, false_and, or_false]
    constructor
    · rintro ⟨hargs, hbody⟩
      exact ⟨args, body, ⟨rfl, rfl⟩, hargs, hbody⟩
    · rintro ⟨_, _, ⟨rfl, rfl⟩, hargs, hbody⟩
      exact ⟨hargs, hbody⟩
  · rename_i h
    simp [h]

/-- The parts of a tree that do not stand for a function which is called at once. -/
def heldParts : Expr → List Expr
  | call (builtin _) args => args
  | lambda _ _ body => [body]
  | e => e.children

/-- The parts of a tree weigh less than it. -/
theorem weight_lt_of_mem_heldParts {c e : Expr} (h : c ∈ e.heldParts) :
  c.weight < e.weight
  := by
  unfold heldParts at h
  split at h
  · exact weight_lt_of_mem_children (List.mem_cons_of_mem _ h)
  · obtain rfl := List.mem_singleton.1 h
    exact weight_lt_of_functionBody? rfl
  · exact weight_lt_of_mem_children h

/-- Whether a tree holds no function that enters or leaves frames, but for calling it at
once. -/
def isFramed (e : Expr) : Bool :=
  !e.movesFrames && e.heldParts.attach.all fun ⟨c, _⟩ => c.isFramed
termination_by e.weight
decreasing_by exact weight_lt_of_mem_heldParts ‹_›

/-- What a tree is made of that holds no function which enters or leaves frames. -/
theorem isFramed_iff {e : Expr} :
  e.isFramed = true ↔ e.movesFrames = false ∧ ∀ c ∈ e.heldParts, c.isFramed = true
  := by
  rw [isFramed]
  simp

/-- The children of a tree hold no function that enters or leaves frames, unless the tree
calls it. -/
theorem isFramed_children {e : Expr} (h : e.isFramed = true) :
  (∀ c ∈ e.children, c.isFramed = true) ∨
    ∃ b args, e = call (builtin b) args ∧ b.movesFrames = true
  := by
  obtain ⟨-, hparts⟩ := isFramed_iff.1 h
  unfold heldParts at hparts
  split at hparts
  · rename_i b args
    cases hb : b.movesFrames with
    | true => exact .inr ⟨b, args, rfl, hb⟩
    | false =>
      have hheld : (builtin b).isFramed = true :=
        isFramed_iff.2 ⟨hb, fun _ h => absurd h List.not_mem_nil⟩
      exact .inl (List.forall_mem_cons.2 ⟨hheld, hparts⟩)
  · exact .inl fun _ h => absurd h List.not_mem_nil
  · exact .inl hparts

end Expr

/-- A tree leaves the frames that it enters, and holds no function that enters or leaves
frames. -/
structure Expr.Tidy (e : Expr) : Prop where
  closed : e.isClosed = true
  framed : e.isFramed = true

namespace Expr

/-- A tree leaves the frames that it enters when its children do. -/
theorem isClosed_of_children {e : Expr} (hm : e.movesFrames = false)
    (h : ∀ c ∈ e.children, c.isClosed = true) :
  e.isClosed = true
  := by
  cases hframe : e.frame? with
  | none => exact isClosed_iff.2 (.inr ⟨hframe, hm, h⟩)
  | some parts =>
    obtain ⟨args, body⟩ := parts
    obtain ⟨depth, rfl⟩ := frame?_eq_some hframe
    have hpush := h _ List.mem_cons_self
    rcases isClosed_iff.1 hpush with ⟨_, _, hnone, _⟩ | ⟨-, -, hpush⟩
    · cases hnone
    · rcases isClosed_iff.1 (hpush _ List.mem_cons_self) with ⟨_, _, hnone, _⟩ | ⟨_, hmoves, _⟩
      · cases hnone
      · cases hmoves

/-- A tree holds no function that enters or leaves frames when its children hold none, and it
is no function literal. -/
theorem isFramed_of_children {e : Expr} (hm : e.movesFrames = false)
    (hbody : e.functionBody? = none) (h : ∀ c ∈ e.children, c.isFramed = true) :
  e.isFramed = true
  := by
  apply isFramed_iff.2 ⟨hm, ?_⟩
  intro c hc
  unfold heldParts at hc
  split at hc
  · exact h c (List.mem_cons_of_mem _ hc)
  · cases hbody
  · exact h c hc

/-- A tree is tidy when its children are, and it is no function literal. -/
theorem Tidy.of_children {e : Expr} (hm : e.movesFrames = false) (hbody : e.functionBody? = none)
    (h : ∀ c ∈ e.children, c.Tidy) :
  e.Tidy
  where
  closed := isClosed_of_children hm fun c hc => (h c hc).closed
  framed := isFramed_of_children hm hbody fun c hc => (h c hc).framed

/-- A function literal is tidy when its body holds no function that enters or leaves frames. -/
theorem Tidy.lambda {name : Option Symbol} {params : List Symbol} {body : Expr}
    (h : body.isFramed = true) :
  (Expr.lambda name params body).Tidy
  where
  closed := isClosed_of_children rfl fun _ h => absurd h List.not_mem_nil
  framed := isFramed_iff.2 ⟨rfl, List.forall_mem_singleton.2 h⟩

/-- A call of a function that a tree holds. -/
theorem isFramed_call_builtin {b : Builtin} {args : List Expr}
    (h : ∀ a ∈ args, a.isFramed = true) :
  (call (builtin b) args).isFramed = true
  := isFramed_iff.2 ⟨rfl, h⟩

/-- A name. -/
theorem isFramed_var (x : Symbol) :
  (var x).isFramed = true
  := isFramed_of_children rfl rfl fun _ h => absurd h List.not_mem_nil

/-- A property of the children of a protected body. -/
theorem forall_children_protect {P : Expr → Prop} {body : Expr} {clauses : List (Clause Expr)}
    {cleanup : Option Expr} (hbody : P body) (hclauses : ∀ c ∈ clauses, P c.body)
    (hcleanup : ∀ e ∈ cleanup, P e) :
  ∀ c ∈ (protect body clauses cleanup).children, P c
  := by
  intro c hc
  rcases List.mem_append.1 hc with hc | hc
  · rcases List.mem_cons.1 hc with rfl | hc
    · exact hbody
    · obtain ⟨clause, hclause, rfl⟩ := List.mem_map.1 hc
      exact hclauses clause hclause
  · exact hcleanup c (Option.mem_toList.1 hc)

/-- A property of the children of a chain of bindings. -/
theorem forall_children_bind {P : Expr → Prop} {bs : List (Symbol × Expr)} {body : Expr}
    (hbs : ∀ b ∈ bs, P b.2) (hbody : P body) :
  ∀ c ∈ (bind bs body).children, P c
  := by
  intro c hc
  rcases List.mem_append.1 hc with hc | hc
  · obtain ⟨b, hb, rfl⟩ := List.mem_map.1 hc
    exact hbs b hb
  · obtain rfl := List.mem_singleton.1 hc
    exact hbody

/-- A property of some bindings and a body is one of the chain of bindings. -/
theorem binding_of {P : Expr → Prop} {bs : List (Symbol × Expr)} {body : Expr}
    (hbind : (∀ c ∈ (bind bs body).children, P c) → P (bind bs body))
    (hbs : ∀ b ∈ bs, P b.2) (hbody : P body) :
  P (binding bs body)
  := by
  rw [binding]
  split
  · exact hbody
  · exact hbind (forall_children_bind hbs hbody)

/-- A property of some trees is one of the sequence of them. -/
theorem block_of {P : Expr → Prop} {es : List Expr} (hnil : P nil)
    (hseq : (∀ c ∈ (seq es).children, P c) → P (seq es)) (h : ∀ e ∈ es, P e) :
  P (block es)
  := by
  unfold block
  split
  · exact hnil
  · exact List.forall_mem_singleton.1 h
  · exact hseq h

/-- Bindings around a body. -/
theorem isFramed_binding {bs : List (Symbol × Expr)} {body : Expr}
    (hbs : ∀ b ∈ bs, b.2.isFramed = true) (hbody : body.isFramed = true) :
  (binding bs body).isFramed = true
  := binding_of (isFramed_of_children rfl rfl) hbs hbody

/-- A sequence. -/
theorem isFramed_block {es : List Expr} (h : ∀ e ∈ es, e.isFramed = true) :
  (block es).isFramed = true
  := block_of (isFramed_of_children rfl rfl fun _ h => absurd h List.not_mem_nil)
    (isFramed_of_children rfl rfl) h

end Expr

end Skein
