import Skein.Proofs.Derivation.Bodies
import Skein.Proofs.Derivation.Marks

/-!
# Scopes and places

Where a tree is lowered, three lists of names are around: the names that the body binds around
the tree, those in the scope, and those that the code binds around what the tree is lowered to.
The names of the body are in the scope, and those in the scope are bound in the code.  The names
that the code binds are those of the body, in their order, with minted names between them.

The rules keep these three lists in step, so that every mark of a derivation is one of a tree of
the body, at a place of the code where the names in the scope are bound.
-/

namespace Skein.Coroutine

open Expr (placedBindings)

variable {table : Table} {body : Expr} {N : Symbol → Prop} {Γ Δ Ω : List Symbol} {s : Scope}
  {n : Mint} {ns ns' : List Mint} {x k f : Symbol} {xs : List Symbol}

/-! ### Names among minted ones -/

/-- Some names in their order, with names of `N` between them. -/
inductive Thread (N : Symbol → Prop) : List Symbol → List Symbol → Prop where
  | nil : Thread N [] []
  | name {Ω Γ : List Symbol} (x : Symbol) (h : Thread N Ω Γ) : Thread N (x :: Ω) (x :: Γ)
  | minted {Ω Γ : List Symbol} {x : Symbol} (hx : N x) (h : Thread N Ω Γ) : Thread N (x :: Ω) Γ

namespace Thread

/-- The same names on both sides. -/
theorem append_left (h : Thread N Ω Γ) (Δ : List Symbol) :
  Thread N (Δ ++ Ω) (Δ ++ Γ)
  := by
  induction Δ with
  | nil => exact h
  | cons x Δ ih => exact .name x ih

/-- More names of `N`. -/
theorem append (h : Thread N Ω Γ) (hΔ : ∀ x ∈ Δ, N x) :
  Thread N (Δ ++ Ω) Γ
  := by
  induction Δ with
  | nil => exact h
  | cons x Δ ih =>
    obtain ⟨hx, hΔ⟩ := List.forall_mem_cons.1 hΔ
    exact .minted hx (ih hΔ)

/-- The names among the others. -/
theorem filter {p : Symbol → Bool} (h : Thread N Ω Γ) (hN : ∀ x, N x → p x = false)
    (hΓ : ∀ x ∈ Γ, p x = true) :
  Ω.filter p = Γ
  := by
  induction h with
  | nil => rfl
  | name x _ ih =>
    obtain ⟨hx, hΓ⟩ := List.forall_mem_cons.1 hΓ
    rw [List.filter_cons, if_pos hx, ih hΓ]
  | minted hx _ ih => rw [List.filter_cons, if_neg (Bool.eq_false_iff.1 (hN _ hx)), ih hΓ]

end Thread

/-! ### Scopes in step with places -/

/-- A scope is in step with the names that the body and the code bind around a place, and the
names that are still to be minted are new to it.  The names of a body are not among those that
are minted when they are not in `N`. -/
structure InStep (body : Expr) (N : Symbol → Prop) (Ω : List Symbol) (s : Scope)
    (Γ : List Symbol) (ns : List Mint) : Prop where
  bound : ∀ x ∈ s.bound, x ∈ Ω
  origin : ∀ x ∈ Γ, x ∈ s.bound
  success : s.success ∈ s.bound
  failure : s.failure ∈ s.bound
  thread : Thread N Ω Γ
  minted : ∀ n ∈ ns, N n.symbol
  nodup : (ns.map (·.symbol)).Nodup
  apart : body.Over (¬ N ·) → ∀ n ∈ ns, n.symbol ∉ s.bound

namespace InStep

/-- Fewer names are minted. -/
theorem sublist (h : InStep body N Ω s Γ ns) (hns : ns'.Sublist ns) :
  InStep body N Ω s Γ ns'
  where
  bound := h.bound
  origin := h.origin
  success := h.success
  failure := h.failure
  thread := h.thread
  minted n hn := h.minted n (hns.subset hn)
  nodup := h.nodup.sublist (hns.map _)
  apart hover n hn := h.apart hover n (hns.subset hn)

/-- The names that are minted first. -/
theorem left (h : InStep body N Ω s Γ (ns ++ ns')) :
  InStep body N Ω s Γ ns
  := h.sublist (List.sublist_append_left ns ns')

/-- The names that are minted later. -/
theorem right (h : InStep body N Ω s Γ (ns ++ ns')) :
  InStep body N Ω s Γ ns'
  := h.sublist (List.sublist_append_right ns ns')

/-- The names that are minted after the first one. -/
theorem tail (h : InStep body N Ω s Γ (n :: ns)) :
  InStep body N Ω s Γ ns
  := h.sublist (List.sublist_cons_self n ns)

/-- Minted names are bound that are not in the scope. -/
theorem around (h : InStep body N Ω s Γ ns) (hΔ : ∀ x ∈ Δ, N x) :
  InStep body N (Δ ++ Ω) s Γ ns
  where
  bound x hx := List.mem_append_right _ (h.bound x hx)
  origin := h.origin
  success := h.success
  failure := h.failure
  thread := h.thread.append hΔ
  minted := h.minted
  nodup := h.nodup
  apart := h.apart

/-- Some of the names that are minted first are bound. -/
theorem bind (h : InStep body N Ω s Γ (ns ++ ns'))
    (hxs : ∀ x ∈ xs, ∃ n ∈ ns, n.symbol = x) :
  InStep body N (xs.reverse ++ Ω) (s.binding xs) Γ ns'
  where
  bound x hx := by
    rcases List.mem_append.1 hx with hx | hx
    · exact List.mem_append_left _ hx
    · exact List.mem_append_right _ (h.bound x hx)
  origin x hx := List.mem_append_right _ (h.origin x hx)
  success := List.mem_append_right _ h.success
  failure := List.mem_append_right _ h.failure
  thread := by
    apply h.thread.append
    intro x hx
    obtain ⟨n, hn, rfl⟩ := hxs x (List.mem_reverse.1 hx)
    exact h.minted n (List.mem_append_left _ hn)
  minted := h.right.minted
  nodup := h.right.nodup
  apart hover n hn hx := by
    rcases List.mem_append.1 hx with hx | hx
    · obtain ⟨n', hn', hx⟩ := hxs _ (List.mem_reverse.1 hx)
      have hnodup := h.nodup
      rw [List.map_append, List.nodup_append] at hnodup
      exact hnodup.2.2 _ (List.mem_map_of_mem hn') _ (List.mem_map_of_mem hn) hx
    · exact h.apart hover n (List.mem_append_right _ hn) hx

/-- The name that is minted first is bound. -/
theorem bindFirst (h : InStep body N Ω s Γ (n :: ns)) :
  InStep body N (n.symbol :: Ω) (s.binding [n.symbol]) Γ ns
  := @bind body N Γ Ω s [n] ns [n.symbol] h
    (List.forall_mem_singleton.2 ⟨n, List.mem_cons_self, rfl⟩)

/-- The scope of the body of a loop. -/
theorem inLoop {params : List Symbol} (h : InStep body N Ω s Γ (.head x params :: ns))
    (arity : Nat) :
  InStep body N (x :: Ω) (s.inLoop ⟨x, arity⟩) Γ ns
  := { h.bindFirst with }

/-- The scope of a tree whose value goes to a continuation. -/
theorem deliver (h : InStep body N Ω s Γ (.name k :: ns)) :
  InStep body N (k :: Ω) (s.delivering k) Γ ns
  := { h.bindFirst with success := List.mem_cons_self }

/-- The scope of a tree whose value and errors go elsewhere. -/
theorem continuingWith (h : InStep body N Ω s Γ ns) (hk : k ∈ s.bound) (hf : f ∈ s.bound) :
  InStep body N Ω (s.continuingWith k f) Γ ns
  where
  bound := List.forall_mem_cons.2
    ⟨h.bound f hf, List.forall_mem_cons.2 ⟨h.bound k hk, h.bound⟩⟩
  origin x hx := List.mem_cons_of_mem _ (List.mem_cons_of_mem _ (h.origin x hx))
  success := List.mem_cons_of_mem _ List.mem_cons_self
  failure := List.mem_cons_self
  thread := h.thread
  minted := h.minted
  nodup := h.nodup
  apart hover n hn hx := by
    have hnew := h.apart hover n hn
    rcases List.mem_cons.1 hx with heq | hx
    · exact hnew (heq ▸ hf)
    · rcases List.mem_cons.1 hx with heq | hx
      · exact hnew (heq ▸ hk)
      · exact hnew hx

/-- The body binds some names. -/
theorem names (h : InStep body N Ω s Γ ns) (hxs : ∀ x ∈ xs, body.Contains x) :
  InStep body N (xs.reverse ++ Ω) (s.binding xs) (xs.reverse ++ Γ) ns
  where
  bound x hx := by
    rcases List.mem_append.1 hx with hx | hx
    · exact List.mem_append_left _ hx
    · exact List.mem_append_right _ (h.bound x hx)
  origin x hx := by
    rcases List.mem_append.1 hx with hx | hx
    · exact List.mem_append_left _ hx
    · exact List.mem_append_right _ (h.origin x hx)
  success := List.mem_append_right _ h.success
  failure := List.mem_append_right _ h.failure
  thread := h.thread.append_left _
  minted := h.minted
  nodup := h.nodup
  apart hover n hn hx := by
    rcases List.mem_append.1 hx with hx | hx
    · exact hover _ (hxs _ (List.mem_reverse.1 hx)) (h.minted n hn)
    · exact h.apart hover n hn hx

/-- The body binds a name. -/
theorem name (h : InStep body N Ω s Γ ns) (hx : body.Contains x) :
  InStep body N (x :: Ω) (s.binding [x]) (x :: Γ) ns
  := @names body N Γ Ω s ns [x] h (List.forall_mem_singleton.2 hx)

end InStep

/-! ### Marks in step with places -/

/-- What is done with a tree, where the names `Ω` are bound in the code and `Γ` in the body. -/
def Act.Sound (table : Table) (body : Expr) (N : Symbol → Prop) (Ω Γ : List Symbol)
    (source code : Expr) : Act → Prop
  | copy => code = source
  | keep s value used => isFixed s value = true ∧ (∀ x ∈ s.bound, x ∈ Ω) ∧
    (∀ x ∈ Γ, x ∈ s.bound) ∧ ∃ added, used.LiesIn added code ∧
      (body.Over (¬ N ·) → ∀ x ∈ added, x ∉ s.bound)
  | ask handler site args =>
    (∃ f es, source = .call f es ∧ calledHandler? table f = some (site.op, handler)) ∧
      handler site args = .ok code ∧ (∀ x ∈ site.bound, x ∈ Ω) ∧ ∀ x ∈ Γ, x ∈ site.bound
  | head x params => (∃ bs e, source = .loop bs e ∧ params = bs.map (·.1)) ∧
    ∃ inner start, code = .bind [(x, .lambda (some x) params inner)] start

/-- A mark is one of a tree of a body, at a place of some code around which the names `Ω` are
bound. -/
structure Mark.Sound (table : Table) (body : Expr) (N : Symbol → Prop) (Ω : List Symbol)
    (m : Mark) : Prop where
  source : m.source.LiesIn m.origin body
  thread : Thread N (m.around ++ Ω) m.origin
  act : m.act.Sound table body N (m.around ++ Ω) m.origin m.source m.code

/-- Marks are those of trees of a body. -/
def Sounds (table : Table) (body : Expr) (N : Symbol → Prop) (Ω : List Symbol)
    (ms : List Mark) : Prop :=
  ∀ m ∈ ms, m.Sound table body N Ω

namespace Sounds

variable {ms ms' : List Mark} {bs : List (Symbol × Expr)} {e : Expr}

/-- More marks. -/
theorem append (h : Sounds table body N Ω ms) (h' : Sounds table body N Ω ms') :
  Sounds table body N Ω (ms ++ ms')
  := List.forall_mem_append.2 ⟨h, h'⟩

/-- Marks in a part of the code. -/
theorem under (h : Sounds table body N (Δ ++ Ω) ms) :
  Sounds table body N Ω (under Δ ms)
  := by
  intro m hm
  obtain ⟨m', hm', rfl⟩ := List.mem_map.1 hm
  obtain ⟨hsource, hthread, hact⟩ := h m' hm'
  rw [← List.append_assoc] at hthread hact
  exact ⟨hsource, hthread, hact⟩

/-- A copy. -/
theorem copied (he : e.LiesIn Γ body) (hthread : Thread N Ω Γ) :
  Sounds table body N Ω [.copied Γ e]
  := List.forall_mem_singleton.2 ⟨he, hthread, rfl⟩

/-- Copies of some trees. -/
theorem copiedAll {es : List Expr} (hes : ∀ e ∈ es, e.LiesIn Γ body) (hthread : Thread N Ω Γ) :
  Sounds table body N Ω (es.map (.copied Γ))
  := by
  intro m hm
  obtain ⟨e, he, rfl⟩ := List.mem_map.1 hm
  exact ⟨hes e he, hthread, rfl⟩

/-- The copy of a tree whose value is used. -/
theorem copy {v : Operand} (hv : ∀ e, v = .tree e → e.LiesIn Γ body) (hthread : Thread N Ω Γ) :
  Sounds table body N Ω (v.copies Γ)
  := by
  cases v with
  | tree e => exact copied (hv e rfl) hthread
  | minted x => exact List.forall_mem_nil _

/-- Copies of the trees whose values are used. -/
theorem copies {vs : List Operand} (hvs : ∀ e, .tree e ∈ vs → e.LiesIn Γ body)
    (hthread : Thread N Ω Γ) :
  Sounds table body N Ω (vs.flatMap (·.copies Γ))
  := by
  intro m hm
  obtain ⟨v, hv, hm⟩ := List.mem_flatMap.1 hm
  exact copy (fun e he => hvs e (he ▸ hv)) hthread m hm

/-- Copies of initial values. -/
theorem copiedBindings (hvalues : ∀ p ∈ placedBindings Γ bs, p.2.LiesIn p.1 body)
    (hthread : Thread N Ω Γ) :
  Sounds table body N Ω (copiedBindings Γ bs)
  := by
  intro m hm
  obtain ⟨p, hp, rfl⟩ := List.mem_map.1 hm
  have hplaced := Expr.placedBindings_append [] Γ bs
  rw [List.nil_append] at hplaced
  rw [hplaced] at hvalues
  exact ⟨hvalues _ (List.mem_map_of_mem hp), hthread.append_left p.1, rfl⟩

end Sounds

/-- The names of values that a loop is entered anew with are minted. -/
theorem Fixes.minted {vs : List Operand} {temps : List (Symbol × Expr)} {values : List Expr}
    {ms : List Mark} (h : Fixes Γ s vs temps values ms ns) :
  ∀ x ∈ temps.map (·.1), ∃ n ∈ ns, n.symbol = x
  := by
  induction h with
  | nil => nofun
  | kept _ _ ih => exact ih
  | named t _ _ ih =>
    rw [List.map_cons]
    refine List.forall_mem_cons.2 ⟨⟨_, List.mem_cons_self, rfl⟩, fun x hx => ?_⟩
    obtain ⟨n, hn, hx⟩ := ih x hx
    exact ⟨n, List.mem_cons_of_mem _ hn, hx⟩

/-- The values that a loop is entered anew with are marked where they are in the body. -/
theorem Fixes.sound {vs : List Operand} {temps : List (Symbol × Expr)} {values : List Expr}
    {ms : List Mark} (h : Fixes Γ s vs temps values ms ns)
    (hvs : ∀ e, .tree e ∈ vs → e.LiesIn Γ body) (hminted : ∀ n ∈ ns, N n.symbol)
    (hthread : Thread N Ω Γ) :
  Sounds table body N Ω ms
  := by
  induction h generalizing Ω with
  | nil => exact List.forall_mem_nil _
  | @kept v vs temps values ms ns _ h ih =>
    refine Sounds.append (Sounds.under (.copy ?_ (hthread.append ?_))) ?_
    · exact fun e he => hvs e (he ▸ List.mem_cons_self)
    · intro x hx
      obtain ⟨n, hn, rfl⟩ := h.minted x (List.mem_reverse.1 hx)
      exact hminted n hn
    · exact ih (fun e he => hvs e (List.mem_cons_of_mem _ he)) hminted hthread
  | named t _ _ ih =>
    obtain ⟨ht, hminted⟩ := List.forall_mem_cons.1 hminted
    refine Sounds.append (.copy (fun e he => hvs e (he ▸ List.mem_cons_self)) hthread) ?_
    exact (ih (fun e he => hvs e (List.mem_cons_of_mem _ he)) hminted (.minted ht hthread)).under

section landing

variable {l last : Landing} {ms : List Mark} {P : Symbol → Prop}

/-- The continuations that run a cleanup are minted. -/
theorem Derives.cleanup_names {cleanup : Option Expr}
    (h : Derives table (.cleanup Γ s cleanup) (.landing l) ms ns) :
  ∀ x ∈ l.bindings.map (·.1), .name x ∈ ns
  := by
  cases h with
  | noCleanup => exact List.forall_mem_nil _
  | cleanup k v g f err g' _ _ =>
    refine List.forall_mem_cons.2 ⟨List.mem_cons_self, List.forall_mem_singleton.2 ?_⟩
    simp

/-- A protected body ends, after its cleanup, in continuations that are minted or in those of the
scope. -/
theorem Derives.landing_cleanup {cleanup : Option Expr}
    (h : Derives table (.cleanup Γ s cleanup) (.landing l) ms ns)
    (hnames : ∀ x ∈ l.bindings.map (·.1), P x) (hsuccess : P s.success) (hfailure : P s.failure) :
  P l.success ∧ P l.failure
  := by
  cases h with
  | noCleanup => exact ⟨hsuccess, hfailure⟩
  | cleanup k v g f err g' _ _ =>
    exact ⟨hnames _ List.mem_cons_self, hnames _ (List.mem_cons_of_mem _ List.mem_cons_self)⟩

/-- The continuations that select a clause are minted. -/
theorem Derives.clauses_names {clauses : List (Clause Expr)}
    (h : Derives table (.clauses Γ s last clauses) (.landing l) ms ns) :
  ∀ x ∈ l.bindings.map (·.1), .name x ∈ ns
  := by
  cases h with
  | noClauses => exact List.forall_mem_nil _
  | clauses f err g _ _ => exact List.forall_mem_singleton.2 List.mem_cons_self

/-- A protected body ends, before its cleanup, in continuations that are minted or in those that
follow. -/
theorem Derives.landing_clauses {clauses : List (Clause Expr)}
    (h : Derives table (.clauses Γ s last clauses) (.landing l) ms ns)
    (hnames : ∀ x ∈ l.bindings.map (·.1), P x) (hlast : P last.success ∧ P last.failure) :
  P l.success ∧ P l.failure
  := by
  cases h with
  | noClauses => exact hlast
  | clauses f err g _ _ => exact ⟨hlast.1, hnames _ List.mem_cons_self⟩

end landing

/-! ### Derivations in step with places -/

/-- What is to be lowered is in step with the names that the code binds around it, and so are
the marks that there are already. -/
def Job.InStep (table : Table) (body : Expr) (N : Symbol → Prop) (Ω : List Symbol)
    (ns : List Mint) : Job → Prop
  | .tree Γ s _ | .sequence Γ s _ _ | .bindings Γ s _ _ | .cleanup Γ s _ | .bodies Γ s _ =>
    Coroutine.InStep body N Ω s Γ ns
  | .receive Γ s _ k x _ ms =>
    Coroutine.InStep body N Ω s Γ (.name k :: ns) ∧ Sounds table body N (x :: Ω) ms
  | .inOrder Γ s values _ finish =>
    Coroutine.InStep body N Ω s Γ ns ∧ (∀ e, .tree e ∈ values → e.LiesIn Γ body) ∧
      ∀ Ω, Coroutine.InStep body N Ω finish.scope Γ finish.minted →
        (∀ e, .tree e ∈ finish.values → e.LiesIn Γ body) → Sounds table body N Ω finish.marks
  | .clauses Γ s last _ =>
    Coroutine.InStep body N Ω s Γ ns ∧ last.success ∈ s.bound ∧ last.failure ∈ s.bound

/-- What holds of the values of one kind still does with one more value. -/
theorem Operand.forall_mem_concat {α : Type} {P : α → Prop} {c : α → Operand}
    {values : List Operand} {v : Operand} (hvalues : ∀ a, c a ∈ values → P a) (hv : ∀ a, c a = v → P a) :
  ∀ a, c a ∈ values ++ [v] → P a
  := by
  intro a ha
  rcases List.mem_append.1 ha with ha | ha
  · exact hvalues a ha
  · exact hv a (List.mem_singleton.1 ha)

/-- No values. -/
theorem Job.InStep.inOrder {es : List Expr} {finish : Finish} (h : Coroutine.InStep body N Ω s Γ ns)
    (hfinish : ∀ Ω, Coroutine.InStep body N Ω finish.scope Γ finish.minted →
      (∀ e, .tree e ∈ finish.values → e.LiesIn Γ body) → Sounds table body N Ω finish.marks) :
  (Job.inOrder Γ s [] es finish).InStep table body N Ω ns
  := ⟨h, nofun, hfinish⟩

/-- A derivation marks trees of the body, at places of the code that are in step with them. -/
theorem Derives.sound {job : Job} {out : Output} {ms : List Mark}
    (h : Derives table job out ms ns) (hjob : job.Within body)
    (hstep : job.InStep table body N Ω ns) :
  Sounds table body N Ω ms
  := by
  induction h generalizing Ω with
  | copied => exact .copied hjob hstep.thread
  | ask hhandler hmade _ ih =>
    refine ih (fun c hc => hjob.child rfl c (List.mem_cons_of_mem _ hc)) (.inOrder hstep ?_)
    intro Ω hstep hvalues
    refine List.forall_mem_cons.2 ⟨⟨hjob, hstep.thread, ⟨_, _, rfl, hhandler⟩, hmade,
      hstep.bound, hstep.origin⟩, Sounds.copies hvalues hstep.thread⟩
  | call _ _ _ ih =>
    refine ih (hjob.child rfl) (.inOrder hstep ?_)
    exact fun Ω hstep hvalues => Sounds.copies hvalues hstep.thread
  | cond _ _ _ _ ihyes ihno ih =>
    have hchildren := hjob.child rfl
    rw [Expr.children, List.forall_mem_cons, List.forall_mem_cons, List.forall_mem_singleton]
      at hchildren
    obtain ⟨htest, hyes, hno⟩ := hchildren
    refine ih (List.forall_mem_singleton.2 htest) (.inOrder hstep fun Ω hstep hvalues => ?_)
    refine Sounds.append (.copy ?_ hstep.thread) (.append ?_ ?_)
    · exact fun e he => hvalues e (he ▸ List.mem_cons_self)
    · exact ihyes hyes hstep.left
    · exact ihno hno hstep.right
  | seq _ _ ih => exact ih (hjob.child rfl) hstep
  | bind _ _ ih => exact ih (.of_bind hjob) hstep
  | loop x e _ _ _ ihbody ihstart =>
    refine List.forall_mem_cons.2 ⟨⟨hjob, hstep.thread, ⟨_, _, rfl, rfl⟩, _, _, rfl⟩, ?_⟩
    refine Sounds.append (.under ?_) (.under ?_)
    · apply ihbody (liesIn_of_loop hjob)
      rw [List.append_assoc]
      exact (hstep.inLoop _).left.names fun y hy => hjob.contains_of_mem_binders hy
    · exact ihstart (.of_loop hjob _) hstep.bindFirst.right.tail
  | recur _ _ hfixes _ ih =>
    refine ih (hjob.child rfl) (.inOrder hstep fun Ω hstep hvalues => ?_)
    refine Sounds.append (fun m hm => ?_) (hfixes.sound hvalues hstep.minted hstep.thread)
    obtain ⟨v, hv, rfl⟩ := List.mem_map.1 hm
    refine ⟨hjob, hstep.thread, (List.mem_filter.1 hv).2, hstep.bound, hstep.origin, _,
      Expr.liesIn_binding, ?_⟩
    intro hover x hx
    obtain ⟨n, hn, rfl⟩ := hfixes.minted x (List.mem_reverse.1 hx)
    exact hstep.apart hover n hn
  | define _ _ ih =>
    refine ih (hjob.child rfl) (.inOrder hstep fun Ω hstep hvalues => ?_)
    exact .copy (fun e he => hvalues e (he ▸ List.mem_cons_self)) hstep.thread
  | plain _ _ ih => exact ih (liesIn_of_protect hjob) hstep
  | @protect Γ s _ _ _ _ last first _ _ _ ns₁ ns₂ ns₃ e _ hlast hfirst _ ihlast ihfirst ihbody =>
    have hinner := hstep.bind fun y hy => ⟨_, hlast.cleanup_names y hy, rfl⟩
    have hbound : last.success ∈ (s.binding (last.bindings.map (·.1))).bound ∧
        last.failure ∈ (s.binding (last.bindings.map (·.1))).bound :=
      hlast.landing_cleanup (fun y hy => List.mem_append_left _ (List.mem_reverse.2 hy))
        hinner.success hinner.failure
    refine Sounds.append ?_ (.append (.under ?_) (.under ?_))
    · exact ihlast (cleanup_liesIn_of_protect hjob) hstep.left
    · exact ihfirst (clausesWithin_of_protect hjob) ⟨hinner.left, hbound⟩
    · apply ihbody (liesIn_of_protect hjob)
      rw [List.map_append, List.reverse_append, List.append_assoc]
      obtain ⟨hsuccess, hfailure⟩ := hfirst.landing_clauses
        (P := (· ∈ ((s.binding (last.bindings.map (·.1))).binding
          (first.bindings.map (·.1))).bound))
        (fun y hy => List.mem_append_left _ (List.mem_reverse.2 hy))
        (hbound.imp (List.mem_append_right _) (List.mem_append_right _))
      exact (hinner.bind fun y hy => ⟨_, hfirst.clauses_names y hy, rfl⟩).left.continuingWith
        hsuccess hfailure
  | receive k x err _ _ ih =>
    obtain ⟨hstep, hms⟩ := hstep
    have hsub : InStep body N Ω _ _ (.name k :: _) :=
      hstep.sublist ((List.sublist_cons_self _ _).cons_cons _)
    exact Sounds.append (.under hms) (.under (ih hjob hsub.deliver))
  | finish =>
    obtain ⟨hstep, hvalues, hfinish⟩ := hstep
    refine hfinish Ω hstep fun e he => ?_
    rcases List.mem_append.1 he with he | he
    · exact hvalues e he
    · obtain ⟨d, hd, heq⟩ := List.mem_map.1 he
      cases heq
      exact hjob _ hd
  | suspended v k _ _ ihrest ih =>
    obtain ⟨hstep, hvalues, hfinish⟩ := hstep
    obtain ⟨he, hes⟩ := List.forall_mem_cons.1 hjob
    have hvalues := Operand.forall_mem_concat (v := .minted v) hvalues
      fun _ => Operand.noConfusion
    exact ih he ⟨hstep.tail.right, ihrest hes ⟨hstep.bindFirst.left, hvalues, hfinish⟩⟩
  | kept hn _ hfixed h ih =>
    obtain ⟨hstep, hvalues, hfinish⟩ := hstep
    obtain ⟨he, hes⟩ := List.forall_mem_cons.1 hjob
    obtain ⟨added, hadded, hminted⟩ := h.finish_liesIn
    refine List.forall_mem_cons.2 ⟨⟨he, hstep.thread, hfixed, hstep.bound, hstep.origin, added,
      hadded, fun hover x hx => ?_⟩, ih hes ⟨hstep, Operand.forall_mem_concat hvalues ?_, hfinish⟩⟩
    · obtain ⟨n, hn, rfl⟩ := hminted x hx
      exact hstep.apart hover n hn
    · rintro d ⟨⟩
      exact he
  | named t _ _ _ _ ih =>
    obtain ⟨hstep, hvalues, hfinish⟩ := hstep
    obtain ⟨he, hes⟩ := List.forall_mem_cons.1 hjob
    refine List.forall_mem_cons.2 ⟨⟨he, hstep.thread, rfl⟩, ?_⟩
    have hvalues := Operand.forall_mem_concat (v := .minted t) hvalues
      fun _ => Operand.noConfusion
    exact Sounds.under (ih hes ⟨hstep.bindFirst, hvalues, hfinish⟩)
  | sequence => exact .copiedAll hjob hstep.thread
  | sequenceLast _ _ _ ih =>
    obtain ⟨hbefore, he⟩ := List.forall_mem_append.1 hjob
    exact Sounds.append (.copiedAll hbefore hstep.thread) (ih (he _ List.mem_cons_self) hstep)
  | sequenceMore k ignored _ _ _ _ ihafter ih =>
    obtain ⟨hbefore, hes⟩ := List.forall_mem_append.1 hjob
    obtain ⟨he, hes⟩ := List.forall_mem_cons.1 hes
    refine Sounds.append (.copiedAll hbefore hstep.thread) (ih he ⟨?_, ?_⟩)
    · exact hstep.sublist (((List.sublist_append_right _ _).cons _).cons_cons _)
    · exact ihafter hes hstep.tail.bindFirst.left
  | bindingsValue _ _ ih =>
    refine Sounds.append (.copiedBindings hjob.values hstep.thread) (.under ?_)
    exact ih hjob.tail (hstep.names hjob.names)
  | bindingsCode => exact .copiedBindings hjob.values hstep.thread
  | bindingsMore k _ _ _ ihafter ih =>
    have hnames := hjob.names
    have hvalues := hjob.values
    rw [List.map_append, List.forall_mem_append] at hnames
    rw [Expr.placedBindings_concat, List.forall_mem_append] at hvalues
    refine Sounds.append (.copiedBindings hvalues.1 hstep.thread) (.under (ih hjob.value ?_))
    have hbefore := hstep.names hnames.1
    refine ⟨hbefore.right, ihafter hjob.rest ?_⟩
    exact hbefore.left.name (hnames.2 _ List.mem_cons_self)
  | noCleanup => exact List.forall_mem_nil _
  | cleanup k v g f err g' _ _ ihvalue iherror =>
    have he : ∀ d ∈ [_], Expr.LiesIn _ d body := List.forall_mem_singleton.2 (hjob _ rfl)
    refine Sounds.append (.under (ihvalue he hstep.tail.bindFirst.left)) (.under (iherror he ?_))
    have hk := hstep.minted _ List.mem_cons_self
    exact (hstep.tail.tail.right.tail.tail.around (List.forall_mem_singleton.2 hk)).bindFirst.left
  | noClauses => exact List.forall_mem_nil _
  | clauses f err g _ _ ih =>
    obtain ⟨hstep, hsuccess, hfailure⟩ := hstep
    have herr := hstep.tail.minted _ List.mem_cons_self
    refine Sounds.under (ih hjob ?_)
    exact (hstep.tail.tail.left.around (List.forall_mem_singleton.2 herr)).continuingWith
      hsuccess hfailure
  | noBodies => exact List.forall_mem_nil _
  | bodies _ _ ihbody ihrest =>
    obtain ⟨⟨hx, he⟩, hclauses⟩ := List.forall_mem_cons.1 hjob
    exact Sounds.append (.under (ihbody he (hstep.left.name hx))) (ihrest hclauses hstep.right)

/-- A whole body is marked in step with the code that it is compiled to. -/
theorem Compiles.sound {code : Expr} {ms : List Mark} (h : Compiles table body code ms ns)
    (hminted : ∀ n ∈ ns, N n.symbol) (hnodup : (ns.map (·.symbol)).Nodup) :
  Sounds table body N [] ms
  := by
  cases h with
  | @mk _ _ ns success failure h =>
    obtain ⟨hsuccess, hminted⟩ := List.forall_mem_cons.1 hminted
    obtain ⟨hfailure, hminted⟩ := List.forall_mem_cons.1 hminted
    rw [List.map_cons, List.map_cons, List.nodup_cons, List.nodup_cons] at hnodup
    apply Sounds.under
    refine h.sound (.refl body)
      { bound := fun _ hx => hx, origin := nofun, success := ?_, failure := List.mem_cons_self,
        thread := .minted hfailure (.minted hsuccess .nil), minted := hminted,
        nodup := hnodup.2.2, apart := fun _ n hn hx => ?_ }
    · exact List.mem_cons_of_mem _ List.mem_cons_self
    · have hmem := List.mem_map_of_mem (f := Mint.symbol) hn
      rcases List.mem_cons.1 hx with heq | hx
      · exact hnodup.2.1 (heq ▸ hmem)
      · have heq := List.mem_singleton.1 hx
        exact hnodup.1 (List.mem_cons_of_mem _ (heq ▸ hmem))

end Skein.Coroutine
