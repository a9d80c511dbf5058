import Skein.Proofs.Agree.Eval

/-!
# Alike machines are linked

Alike machines are the machines that are linked as a whole where every atom stands for itself.  So
computations that agree end alike on alike machines.
-/

namespace Skein

variable {own n : Nat} {W : World} {m m' : Machine}

/-! ### Parts of machines -/

/-- Alike conditions carry alike values. -/
theorem Condition.rel_alike_iff {c c' : Condition Value} :
  Condition.Rel (Value.Alike W) c c' ↔ Condition.Alike W c c'
  := ⟨fun ⟨h⟩ => ⟨h⟩, fun ⟨h⟩ => ⟨h⟩⟩

/-- Alike ends are ends with alike values. -/
theorem Ended.rel_alike_iff {r r' : Except (Condition Value) Value} :
  Ended.Rel (Value.Alike W) r r' ↔ Ended.Alike W r r'
  := by
  constructor
  · rintro (h | h)
    · exact .ok h
    · exact .error (Condition.rel_alike_iff.1 h)
  · rintro (h | h)
    · exact .ok h
    · exact .error (Condition.rel_alike_iff.2 h)

/-- Alike work is the same work on alike values. -/
theorem Work.rel_alike_iff {work work' : Work} :
  Work.Rel (Value.Alike W) work work' ↔ Work.Alike W work work'
  := by
  constructor
  · rintro (hf | ⟨hs, hf, ha⟩ | ⟨hs, hk, ha⟩)
    · exact .plain hf
    · exact .delivery hs hf ha
    · exact .resumption hs hk ha
  · rintro (hf | ⟨hs, hf, ha⟩ | ⟨hs, hk, ha⟩)
    · exact .plain hf
    · exact .delivery hs hf ha
    · exact .resumption hs hk ha

/-- Alike lookups are made in frames with alike values. -/
theorem Lookup.rel_alike :
  Lookup.Rel (Value.Alike W) = Lookup.Alike W
  := by
  funext l l'
  exact propext ⟨fun ⟨h⟩ => ⟨h⟩, fun ⟨h⟩ => ⟨h⟩⟩

/-- Alike timers are timers with alike values. -/
theorem Timer.rel_alike_iff {t t' : Timer} :
  Timer.Rel (Value.Alike W) t t' ↔ Timer.Alike W t t'
  := ⟨fun h => ⟨h.deadline, h.order, h.callback, h.value⟩,
    fun h => ⟨h.deadline, h.order, h.callback, h.value⟩⟩

/-- On alike stages things with alike values have happened. -/
theorem Stage.rel_alike_iff {s s' : Stage} :
  Stage.Rel (Value.Alike W) s s' ↔ Stage.Alike W s s'
  := by
  constructor
  · intro h
    exact {
      deliveries := fun k => Ended.rel_alike_iff.1 (h.deliveries k)
      late := h.late
      requests := h.requests
      pending := h.pending.imp fun _ _ hp => ⟨hp.target, hp.argument⟩
      results := h.results.imp fun _ _ hr => ⟨hr.outcome, hr.value⟩
      lookups := Lookup.rel_alike (W := W) ▸ h.lookups
      states := h.states }
  · intro h
    exact {
      deliveries := fun k => Ended.rel_alike_iff.2 (h.deliveries k)
      late := h.late
      requests := h.requests
      pending := h.pending.imp fun _ _ hp => ⟨hp.target, hp.argument⟩
      results := h.results.imp fun _ _ hr => ⟨hr.outcome, hr.value⟩
      lookups := Lookup.rel_alike (W := W) ▸ h.lookups
      states := h.states }

/-- Machines are compared as a whole, with all the work in the levels that are compared. -/
def Likeness.entire (own : Nat) (outside outside' : List Level) : Likeness :=
  ⟨True, own, [], [], outside, outside', 0, 0, fun _ _ => False⟩

/-- Alike levels are linked. -/
theorem Level.Alike.linked {ls ls' : List Level} (h : Level.Alike W n ls ls') :
  Level.Linked (.entire own (ls.drop (n + 1)) (ls'.drop (n + 1))) W.link n ls ls'
  := by
  have hworks : ∀ {works works' : List Work}, List.Forall₂ (Work.Alike W) works works' →
      List.Forall₂ (Work.Linked W.link) works works' := by
    intro works works' hq
    rw [Work.Linked, Value.linked_link]
    exact hq.imp fun _ _ hw => Work.rel_alike_iff.2 hw
  induction h with
  | innermost hq => exact .innermost (hworks hq)
  | outer hq _ ih => exact .outer (hworks hq) ih

/-- Levels that are linked as a whole are alike. -/
theorem Level.Linked.alike {o o' ls ls' : List Level}
    (h : Level.Linked (.entire own o o') W.link n ls ls') :
  Level.Alike W n ls ls'
  := by
  have hworks : ∀ {works works' : List Work},
      List.Forall₂ (Work.Linked W.link) works works' →
      List.Forall₂ (Work.Alike W) works works' := by
    intro works works' hq
    rw [Work.Linked, Value.linked_link] at hq
    exact hq.imp fun _ _ hw => Work.rel_alike_iff.1 hw
  induction h with
  | innermost hq => exact .innermost (hworks hq)
  | outer hq _ ih => exact .outer (hworks hq) ih

/-! ### Machines -/

/-- Alike machines are linked. -/
theorem Machine.Alike.linked (h : Machine.Alike own n W m m') :
  Machine.Linked (.entire own (m.levels.drop (n + 1)) (m'.levels.drop (n + 1))) n W.link m m'
  where
  globals := by
    rw [Value.linked_link]
    exact h.globals
  atoms := by
    rintro i _ rfl
    rw [Value.linked_link]
    exact h.heap.contents i
  made :=
    { least := Nat.zero_le _
      grown := by
        rw [← Array.length_toList, ← Array.length_toList, h.atoms.length_eq]
        rfl
      known := by
        rintro i _ rfl
        exact .inr ⟨Nat.zero_le _, rfl⟩
      new := fun i j _ _ hij => hij
      bounded := fun hwhole => absurd trivial hwhole }
  executions := h.executions
  context := by
    rw [Value.linked_link]
    exact h.context
  levels := h.levels.linked
  limit := h.limit
  limit' := h.limit'
  clock := h.clock
  stage := by
    rw [Stage.Linked, Value.linked_link]
    exact Stage.rel_alike_iff.2 h.stage
  injective := World.link_injective_iff.2 h.injective
  fresh := h.fresh
  settled := h.settled
  ownBound := h.ownBound
  ownState := h.ownState
  out _ := h.out
  timers _ := by
    rw [Value.linked_link]
    exact h.timers.imp fun _ _ ht => Timer.rel_alike_iff.2 ht
  scheduled _ := h.scheduled
  journal _ := h.journal

/-- Machines that are linked as a whole are alike. -/
theorem Machine.Linked.alike {o o' : List Level}
    (h : Machine.Linked (.entire own o o') n W.link m m') :
  Machine.Alike own n W m m'
  where
  globals := by
    rw [← Value.linked_link]
    exact h.globals
  atoms := by
    rw [← Value.linked_link, List.forall₂_iff_get]
    have hsize : m.heap.atoms.size = m'.heap.atoms.size := h.made.grown
    refine ⟨by rw [Array.length_toList, Array.length_toList, hsize], fun i hi hi' => ?_⟩
    have hv := h.atoms i i rfl
    rw [Array.length_toList] at hi hi'
    rw [Heap.contents, Heap.contents, Array.getElem?_eq_getElem hi,
      Array.getElem?_eq_getElem hi'] at hv
    simpa using hv
  executions := h.executions
  context := by
    rw [← Value.linked_link]
    exact h.context
  levels := h.levels.alike
  limit := h.limit
  limit' := h.limit'
  out := h.out trivial
  timers := (h.timers trivial).imp fun _ _ ht =>
    Timer.rel_alike_iff.1 (by rw [← Value.linked_link]; exact ht)
  clock := h.clock
  scheduled := h.scheduled trivial
  journal := h.journal trivial
  stage := Stage.rel_alike_iff.1 (by rw [← Value.linked_link]; exact h.stage)
  injective := World.link_injective_iff.1 h.injective
  fresh := h.fresh
  settled := h.settled
  ownBound := h.ownBound
  ownState := h.ownState

/-- Where more is known than in a world, and machines are linked as a whole, that is a world that
knows more. -/
theorem Machine.Linked.exists_world {o o' : List Level} {X : Link} (hX : W.link ≤ X)
    (h : Machine.Linked (.entire own o o') n X m m') :
  ∃ W', X = World.link W' ∧ W ≤ W'
  := by
  have hatoms : X.atoms = Eq := by
    funext i j
    refine propext ⟨fun hij => ?_, hX.2.1 i j⟩
    obtain ⟨hi, -⟩ | ⟨-, hij⟩ := h.made.known i j hij
    · exact absurd hi (Nat.not_lt_zero i)
    · exact hij
  refine ⟨⟨X.ids, X.executions⟩, ?_, hX.1, hX.2.2⟩
  rw [World.link, ← hatoms]

/-! ### Computations -/

/-- Both computations give related values, or both raise alike conditions. -/
inductive Ended.Related {α β : Type} (R : World → α → β → Prop) (W : World) :
    Ended α → Ended β → Prop where
  | ok {a : α} {b : β} (h : R W a b) : Related R W (.ok a) (.ok b)
  | error {c c' : Condition Value} (h : Condition.Alike W c c') :
    Related R W (.error c) (.error c')

/-- A computation that agrees with one that ends ends alike. -/
theorem Run.Agree.gives {α β : Type} {R : World → α → β → Prop} {S : Link → α → β → Prop}
    {act : Run α} {act' : Run β} {r : Ended α} {m₁ : Machine}
    (h : ∀ o o', Run.Agree (.entire own o o') n W.link S act act')
    (hS : ∀ W' a b, S (World.link W') a b → R W' a b) (hr : act.Gives m r m₁)
    (hm : Machine.Alike own n W m m') :
  ∃ W' r' m₁', W ≤ W' ∧ Ended.Related R W' r r' ∧ Machine.Alike own n W' m₁ m₁' ∧
    act'.Gives m' r' m₁'
  := by
  have ha := h _ _ m m' hm.linked
  unfold Run.Gives at hr
  rw [hr] at ha
  cases r with
  | ok a =>
    generalize hact' : act' m' = s at ha
    obtain ⟨hX, hab, hm₁⟩ := ha
    obtain ⟨W', rfl, hW⟩ := hm₁.exists_world hX
    exact ⟨W', .ok _, _, hW, .ok (hS _ _ _ hab), hm₁.alike, hact'⟩
  | error c =>
    generalize hact' : act' m' = s at ha
    obtain _ | ⟨hX, hc, hm₁⟩ := ha
    obtain ⟨W', rfl, hW⟩ := hm₁.exists_world hX
    have hc : Condition.Alike W' _ _ :=
      Condition.rel_alike_iff.1 (hc.imp fun _ _ hv => hv.alike)
    exact ⟨W', .error _, _, hW, .error hc, hm₁.alike, hact'⟩

/-- Calling alike functions with alike arguments gives alike results. -/
theorem Value.call_gives {fuel : Nat} {f f' : Value} {vs vs' : List Value} {r : Ended Value}
    {m₁ : Machine} (hf : Value.Alike W f f') (hvs : List.Forall₂ (Value.Alike W) vs vs')
    (h : (Value.call fuel f vs).Gives m r m₁) (hm : Machine.Alike own n W m m') :
  ∃ W' r' m₁', W ≤ W' ∧ Ended.Related Value.Alike W' r r' ∧ Machine.Alike own n W' m₁ m₁' ∧
    (Value.call fuel f' vs').Gives m' r' m₁'
  := Run.Agree.gives
    (fun _ _ => Value.call_agree _ fuel n W.link f f' vs vs' hf.linked
      (hvs.imp fun _ _ hv => hv.linked))
    (fun _ _ _ hv => hv.alike) h hm

/-- Evaluating a tree in the tail of a loop in alike scopes gives alike results. -/
theorem Expr.tail_gives {fuel : Nat} {S : Symbol → Prop} {env env' : Env} {e : Expr}
    {r : Ended TailResult} {m₁ : Machine} (hS : ∀ x, e.Mentions x → S x)
    (henv : Env.Alike W S env env') (h : (e.tail (Value.call fuel) fuel env).Gives m r m₁)
    (hm : Machine.Alike own n W m m') :
  ∃ W' r' m₁', W ≤ W' ∧ Ended.Related TailResult.Alike W' r r' ∧ Machine.Alike own n W' m₁ m₁' ∧
    (e.tail (Value.call fuel) fuel env').Gives m' r' m₁'
  := by
  have henv : Env.Linked W.link S env env' := Env.Rel.imp (fun _ _ hv => Value.Alike.linked hv) henv
  refine Run.Agree.gives (fun _ _ => e.tail_agree (Value.call_agree _ fuel) fuel hS henv) ?_ h hm
  rintro W' _ _ (hv | hvs)
  · exact .value hv.alike
  · exact .again (hvs.imp fun _ _ hv => hv.alike)

/-- Evaluating a tree in alike scopes gives alike results. -/
theorem Expr.eval_gives {fuel : Nat} {S : Symbol → Prop} {env env' : Env} {e : Expr}
    {r : Ended Value} {m₁ : Machine} (hS : ∀ x, e.Mentions x → S x)
    (henv : Env.Alike W S env env') (h : (e.eval (Value.call fuel) fuel env).Gives m r m₁)
    (hm : Machine.Alike own n W m m') :
  ∃ W' r' m₁', W ≤ W' ∧ Ended.Related Value.Alike W' r r' ∧ Machine.Alike own n W' m₁ m₁' ∧
    (e.eval (Value.call fuel) fuel env').Gives m' r' m₁'
  := by
  have henv : Env.Linked W.link S env env' := Env.Rel.imp (fun _ _ hv => Value.Alike.linked hv) henv
  exact Run.Agree.gives (fun _ _ => e.eval_agree (Value.call_agree _ fuel) fuel hS henv)
    (fun _ _ _ hv => hv.alike) h hm

end Skein
