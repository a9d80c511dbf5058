import Skein.Proofs.Actors
import Skein.Proofs.Agree.Eval

/-!
# A coroutine on two machines

A coroutine that has come as far on one machine as on another one has done the same on both: the
machines are kindred, which means that what it can see of the one is linked to what it can see of
the other.  Neither what happens besides, nor a turn of its own on both machines, changes this.
-/

namespace Skein

open Run Trampoline

variable {a : Actor} {W W' : Link} {m m' m₁ m₂ : Machine} {atoms atoms' : List Nat}

/-! ### What is linked -/

/-- Stints in which linked things have been done. -/
structure Stint.Linked (W : Link) (st st' : Stint) : Prop where
  stage : Stage.Linked W st.stage st'.stage
  works : List.Forall₂ (Work.Linked W) st.works st'.works
  result : Ended.Linked W st.result st'.result
  state : st.state = st'.state

/-- Stints stay linked when more is known. -/
theorem Stint.Linked.mono (hW : W ≤ W') {st st' : Stint} (h : Stint.Linked W st st') :
  Stint.Linked W' st st'
  where
  stage := h.stage.imp fun _ _ hv => hv.mono hW
  works := h.works.imp fun _ _ hw => hw.mono hW
  result := h.result.mono hW
  state := h.state

/-- The same start of a coroutine, or the same work, with linked values. -/
inductive Trampoline.Launch.Linked (W : Link) : Launch → Launch → Prop where
  | work {work work' : Work} (h : Work.Linked W work work') : Linked W (.work work) (.work work')
  | coroutine (id : Nat) {f f' success success' failure failure' : Value}
    (hf : Value.Linked W f f') (hs : Value.Linked W success success')
    (he : Value.Linked W failure failure') :
    Linked W (.coroutine id f success failure) (.coroutine id f' success' failure')

/-- Linked launches agree. -/
theorem Trampoline.Launch.Linked.run_agree {L : Likeness} {n : Nat} {call call' : Call}
    (hcall : Call.Agree L call call') {fuel : Nat} {l l' : Launch} (h : Launch.Linked W l l') :
  Agree L n W Value.Linked (l.run call fuel) (l'.run call' fuel)
  := by
  cases h with
  | work h => exact perform_agree hcall h
  | coroutine id hf hs he => exact startWith_agree hcall id hf hs he

/-- On linked machines, linked launches end in linked ways. -/
theorem Trampoline.Launch.Ends.linked {L : Likeness} {n : Nat} {l l' : Launch} {r : Ended Value}
    (h : l.Ends m r m₁) (hl : Launch.Linked W l l') (hm : Machine.Linked L n W m m') :
  ∃ W' r' m₁', W ≤ W' ∧ l'.Ends m' r' m₁' ∧ Ended.Linked W' r r' ∧
    Machine.Linked L n W' m₁ m₁'
  := by
  obtain ⟨c, hgives⟩ := h.gives
  have hagree : Agree L n W Value.Linked
      (l.run (Value.call c) c >>= force (Value.call c) c)
      (l'.run (Value.call c) c >>= force (Value.call c) c) :=
    (hl.run_agree (Value.call_agree L c)).bind fun W₁ v v' hW₁ hv =>
      force_agree (Value.call_agree L c) hv
  have hagreed := hagree m m' hm
  unfold Gives at hgives
  rw [hgives] at hagreed
  cases r with
  | ok v =>
    generalize hends : (l'.run (Value.call c) c >>= force (Value.call c) c) m' = s at hagreed
    obtain ⟨hW, hv, hm₁⟩ := hagreed
    exact ⟨_, .ok _, _, hW, Launch.ends_of_gives hends, .ok hv, hm₁⟩
  | error d =>
    generalize hends : (l'.run (Value.call c) c >>= force (Value.call c) c) m' = s at hagreed
    obtain _ | ⟨hW, hd, hm₁⟩ := hagreed
    exact ⟨_, .error _, _, hW, Launch.ends_of_gives hends, .error hd, hm₁⟩

/-! ### Views -/

/-- The atoms that a coroutine knows after a stint are those that it has known and those that it has
made. -/
theorem Machine.getElem?_append_made {p i : Nat} :
  (atoms ++ m.made m')[p]? = some i ↔
    atoms[p]? = some i ∨ (atoms.length ≤ p ∧
      i + atoms.length = m.heap.atoms.size + p ∧ i < m'.heap.atoms.size)
  := by
  rw [List.getElem?_append]
  split
  · rename_i hp
    exact ⟨.inl, fun h => h.resolve_right fun h => absurd hp (Nat.not_lt_of_le h.1)⟩
  · rename_i hp
    have hnone : atoms[p]? = none := List.getElem?_eq_none (Nat.le_of_not_lt hp)
    rw [hnone, made, List.getElem?_eq_some_iff]
    simp only [List.getElem_range', List.length_range']
    constructor
    · rintro ⟨hlt, rfl⟩
      right
      omega
    · rintro (h | ⟨hle, hi, hlt⟩)
      · cases h
      · refine ⟨by omega, by omega⟩

namespace Actor

/-- A coroutine sees an atom when it knows it at a place that nobody else changes. -/
theorem sees_iff {l : Nat} :
  a.sees atoms l = true ↔ ∃ p, atoms[p]? = some l ∧ p ∉ a.places
  := by
  simp only [sees, List.any_eq_true, Prod.exists, List.mem_zipIdx_iff_getElem?, Bool.and_eq_true,
    beq_iff_eq, Bool.not_eq_true', List.contains_eq_mem, decide_eq_false_iff_not]
  exact ⟨fun ⟨_, p, hp, hl, hfree⟩ => ⟨p, hl ▸ hp, hfree⟩,
    fun ⟨p, hp, hfree⟩ => ⟨l, p, hp, rfl, hfree⟩⟩

/-- A view shows the contents of the atoms that are seen. -/
theorem contents_view (l : Nat) :
  (a.view atoms m).heap.contents l = if a.sees atoms l then m.heap.contents l else .nil
  := by
  simp only [view, Heap.contents, Array.getElem?_mapIdx]
  cases m.heap.atoms[l]? <;> split <;> rfl

/-- A view shows as many atoms as there are. -/
theorem size_view :
  (a.view atoms m).heap.atoms.size = m.heap.atoms.size
  := Array.size_mapIdx

/-- Machines with the same view differ in nothing that a view shows as it is. -/
theorem parts_eq_of_view (h : a.view atoms m = a.view atoms m') :
  m.stage = m'.stage ∧ m.levels = m'.levels ∧ m.nextId = m'.nextId ∧ m.limit = m'.limit
  := ⟨congrArg (·.stage) h, congrArg (·.levels) h, congrArg (·.nextId) h, congrArg (·.limit) h⟩

/-- Views on two machines in which the execution of the coroutine is in the same state show the same
executions. -/
theorem executions_view {s : ExecutionState} (h : m.heap.state? a.execution = some s)
    (h' : m'.heap.state? a.execution = some s) :
  (a.view atoms m).heap.executions = (a.view atoms' m').heap.executions
  := by
  have hsize := (Heap.bounds_of_state? h).2
  have hsize' := (Heap.bounds_of_state? h').2
  simp only [view, h, h', Nat.min_eq_left hsize, Nat.min_eq_left hsize']

/-- A view shows the state of the execution of the coroutine. -/
theorem state?_view {s : ExecutionState} (h : m.heap.state? a.execution = some s) :
  (a.view atoms m).heap.state? a.execution = some s
  := by
  obtain ⟨hpos, hsize⟩ := Heap.bounds_of_state? h
  rw [Heap.state?, if_neg (Nat.ne_of_gt hpos)]
  simp only [view, h, Nat.min_eq_left hsize]
  rw [Array.getElem?_setIfInBounds_self_of_lt (by rw [Array.size_replicate]; omega)]
  rfl

end Actor

/-- On machines with the same view the execution of a coroutine is in the same state, when no other
one has been started on the first of them since. -/
theorem Actor.state?_eq_of_view (h : a.view atoms m = a.view atoms m') (hpos : 0 < a.execution)
    (hnone : m.heap.executions.size = a.execution) :
  ∃ s, m.heap.state? a.execution = some s ∧ m'.heap.state? a.execution = some s
  := by
  have hexists : ∀ {m : Machine}, a.execution ≤ m.heap.executions.size →
      ∃ s, m.heap.state? a.execution = some s := by
    intro m hle
    rw [Heap.state?, if_neg (Nat.ne_of_gt hpos)]
    exact ⟨_, Array.getElem?_eq_getElem (by omega)⟩
  have hsize : ∀ m : Machine, (a.view atoms m).heap.executions.size =
      min a.execution m.heap.executions.size := by
    intro m
    simp only [view, Array.size_setIfInBounds, Array.size_replicate]
  have hle : a.execution ≤ m'.heap.executions.size := by
    have := hsize m'
    rw [← h, hsize m] at this
    omega
  obtain ⟨s, hs⟩ := hexists (Nat.le_of_eq hnone.symm)
  obtain ⟨s', hs'⟩ := hexists hle
  have hview : (a.view atoms m').heap.state? a.execution = some s' := state?_view hs'
  rw [← h, state?_view hs] at hview
  cases hview
  exact ⟨s, hs, hs'⟩

/-! ### Kindred machines -/

/-- What a coroutine can see of one machine is linked to what it can see of another one, where it
knows atoms at the same places. -/
structure Actor.Kindred (a : Actor) (W : Link) (atoms : List Nat) (m : Machine)
    (atoms' : List Nat) (m' : Machine) : Prop where
  globals : List.Forall₂ (Binding.Alike (Value.Linked W)) (m.globals.filter a.reads)
    (m'.globals.filter a.reads)
  places : ∀ i j, W.atoms i j ↔ ∃ p : Nat, atoms[p]? = some i ∧ atoms'[p]? = some j
  known : atoms.length = atoms'.length
  contents : ∀ i j, W.atoms i j → a.sees atoms i = true → a.sees atoms' j = true →
    Value.Linked W (m.heap.contents i) (m'.heap.contents j)
  bounds : ∀ i j, W.atoms i j → i < m.heap.atoms.size ∧ j < m'.heap.atoms.size
  injective : W.Injective
  fresh : ∀ i j, W.ids i j → i < m.nextId ∧ j < m'.nextId
  settled : ∀ id, W.executions id → 0 < id ∧ id ≤ a.execution
  limit : m.limit = none
  limit' : m'.limit = none

/-- What is known of two machines when a coroutine is started on both of them: its continuations
stand for each other. -/
def Link.launching (W : Link) (m m' : Machine) (id : Nat) : Link :=
  ((W.pairing m.nextId m'.nextId).pairing (m.nextId + 1) (m'.nextId + 1)).settling id

/-- Starting a coroutine adds to what is known. -/
theorem Link.le_launching (W : Link) (m m' : Machine) (id : Nat) :
  W ≤ W.launching m m' id
  := ⟨fun _ _ h => .inl (.inl h), fun _ _ h => h, fun _ h => .inl h⟩

/-- The work that waits in the innermost level. -/
def Machine.innermost (m : Machine) : List Work := (m.levels.head?.map (·.queue)).getD []

/-- What is given waits in the innermost level, after what has waited there. -/
theorem Machine.Lets.innermost {works : List Work} (h : Machine.Lets works m m')
    (hl : m.levels ≠ []) :
  ∃ steps, m'.levels = ⟨m.innermost ++ works, steps⟩ :: m.levels.tail
  := by
  obtain ⟨⟨queue, steps⟩, levels, hlevels⟩ := List.exists_cons_of_ne_nil hl
  refine ⟨steps, ?_⟩
  rw [h.levels, Machine.innermost, hlevels]
  rfl

/-- Two machines are compared only in what one coroutine can reach, and apart from the work that
waits already. -/
def Likeness.apart (W : Link) (m m' : Machine) : Likeness where
  whole := False
  own := 0
  before := m.innermost
  before' := m'.innermost
  outside := m.levels.tail
  outside' := m'.levels.tail
  size := m.heap.atoms.size
  size' := m'.heap.atoms.size
  known := W.atoms

namespace Actor.Kindred

/-- A coroutine sees atoms that stand for each other together. -/
theorem sees_iff (h : a.Kindred W atoms m atoms' m') {i j : Nat} (hij : W.atoms i j) :
  a.sees atoms i = true ↔ a.sees atoms' j = true
  := by
  rw [Actor.sees_iff, Actor.sees_iff]
  constructor
  · rintro ⟨p, hp, hfree⟩
    have hlt : p < atoms'.length := h.known ▸ (List.getElem?_eq_some_iff.1 hp).1
    have hp' := List.getElem?_eq_getElem hlt
    have hj := (h.injective.atoms _ _ _ _ hij ((h.places _ _).2 ⟨p, hp, hp'⟩)).1 rfl
    exact ⟨p, by rw [hp', hj], hfree⟩
  · rintro ⟨p, hp', hfree⟩
    have hlt : p < atoms.length := h.known ▸ (List.getElem?_eq_some_iff.1 hp').1
    have hp := List.getElem?_eq_getElem hlt
    have hi := (h.injective.atoms _ _ _ _ hij ((h.places _ _).2 ⟨p, hp, hp'⟩)).2 rfl
    exact ⟨p, by rw [hp, hi], hfree⟩

/-- What a coroutine sees of kindred machines is linked, in linked contexts and with linked stages,
when its execution is in the same state. -/
theorem view_linked (h : a.Kindred W atoms m atoms' m') {s : ExecutionState}
    (hs : m.heap.state? a.execution = some s) (hs' : m'.heap.state? a.execution = some s)
    (hl : m.levels ≠ []) (hl' : m'.levels ≠ []) (hstage : Stage.Linked W m.stage m'.stage)
    {c c' : Context Value} (hc : Context.Alike (Value.Linked W) c c') :
  Machine.Linked (.apart W m m') 0 W { a.view atoms m with context := c }
    { a.view atoms' m' with context := c' }
  where
  globals := h.globals
  atoms i j hij := by
    dsimp only
    rw [contents_view, contents_view]
    by_cases hi : a.sees atoms i = true
    · have hj := (h.sees_iff hij).1 hi
      rw [if_pos hi, if_pos hj]
      exact h.contents i j hij hi hj
    · have hj := (not_congr (h.sees_iff hij)).1 hi
      rw [if_neg hi, if_neg hj]
      exact .scalar .nil
  made := by
    dsimp only
    rw [size_view, size_view]
    exact
      { least := Nat.le_refl _
        grown := Nat.add_comm _ _
        known := fun i j hij => .inl ⟨(h.bounds i j hij).1, (h.bounds i j hij).2, hij⟩
        new := fun i j hle hlt _ => absurd hle (Nat.not_le_of_lt hlt)
        bounded := fun _ i j hij => (h.bounds i j hij).1 }
  executions := executions_view hs hs'
  context := hc
  levels := by
    obtain ⟨⟨queue, steps⟩, levels, hlevels⟩ := List.exists_cons_of_ne_nil hl
    obtain ⟨⟨queue', steps'⟩, levels', hlevels'⟩ := List.exists_cons_of_ne_nil hl'
    have hqueue : m.levels = ⟨m.innermost ++ [], steps⟩ :: m.levels.tail := by
      rw [Machine.innermost, hlevels, List.append_nil]
      rfl
    have hqueue' : m'.levels = ⟨m'.innermost ++ [], steps'⟩ :: m'.levels.tail := by
      rw [Machine.innermost, hlevels', List.append_nil]
      rfl
    change Level.Linked _ _ _ m.levels m'.levels
    rw [hqueue, hqueue']
    exact .innermost .nil
  limit := h.limit
  limit' := h.limit'
  clock := rfl
  stage := hstage
  injective := h.injective
  fresh := h.fresh
  settled id hid := by
    obtain ⟨hpos, hle⟩ := h.settled id hid
    have hview : (a.view atoms m).heap.state? a.execution = some s := state?_view hs
    obtain ⟨-, hsize⟩ := Heap.bounds_of_state? hview
    exact ⟨hpos, hle.trans hsize, Nat.ne_of_gt hpos⟩
  ownBound := Nat.zero_le _
  ownState _ hown := nomatch hown
  out := nofun
  timers := nofun
  scheduled := nofun
  journal := nofun

/-- Machines are kindred after stints that have left them linked as far as the coroutine can see. -/
theorem after (h : a.Kindred W atoms m atoms' m') (hW : W ≤ W') {m₃ m₂' m₃' : Machine}
    {c c' : Context Value}
    (hm : Machine.Linked (.apart W m m') 0 W' { m₃ with context := c } { m₃' with context := c' })
    (hsame : a.view (atoms ++ m.made m₂) m₃ = a.view (atoms ++ m.made m₂) m₂)
    (hsame' : a.view (atoms' ++ m'.made m₂') m₃' = a.view (atoms' ++ m'.made m₂') m₂')
    (hnone : m₃.heap.executions.size = a.execution) :
  a.Kindred W' (atoms ++ m.made m₂) m₂ (atoms' ++ m'.made m₂') m₂'
  := by
  obtain ⟨-, -, hnumber, hlimit⟩ := parts_eq_of_view hsame
  obtain ⟨-, -, hnumber', hlimit'⟩ := parts_eq_of_view hsame'
  have hmade : W'.Made (.apart W m m') m₂.heap.atoms.size m₂'.heap.atoms.size := by
    rw [← size_view (a := a) (m := m₂), ← size_view (a := a) (m := m₂'), ← hsame, ← hsame',
      size_view, size_view]
    exact hm.made
  have hgrown : m₂.heap.atoms.size + m'.heap.atoms.size =
    m₂'.heap.atoms.size + m.heap.atoms.size := hmade.grown
  have hleast : m.heap.atoms.size ≤ m₂.heap.atoms.size := hmade.least
  have hbounded : ∀ i j, W'.atoms i j → i < m₂.heap.atoms.size ∧ j < m₂'.heap.atoms.size := by
    intro i j hij
    have hi := hmade.bounded id i j hij
    exact ⟨hi, (hmade.lt_iff hij).1 hi⟩
  have hplaces : ∀ i j, W'.atoms i j ↔
      ∃ p : Nat, (atoms ++ m.made m₂)[p]? = some i ∧ (atoms' ++ m'.made m₂')[p]? = some j := by
    simp only [Machine.getElem?_append_made, ← h.known]
    intro i j
    constructor
    · intro hij
      have hbound := hbounded i j hij
      obtain ⟨-, -, hold⟩ | ⟨hi, hj⟩ := hmade.known i j hij
      · obtain ⟨p, hp, hp'⟩ := (h.places i j).1 hold
        exact ⟨p, .inl hp, .inl hp'⟩
      · change m.heap.atoms.size ≤ i at hi
        change i + m'.heap.atoms.size = j + m.heap.atoms.size at hj
        exact ⟨atoms.length + (i - m.heap.atoms.size), .inr (by omega), .inr (by omega)⟩
    · rintro ⟨p, hp | hp, hp' | hp'⟩
      · exact hW.2.1 i j ((h.places i j).2 ⟨p, hp, hp'⟩)
      · exact absurd (List.getElem?_eq_some_iff.1 hp).1 (Nat.not_lt_of_le hp'.1)
      · exact absurd (h.known ▸ (List.getElem?_eq_some_iff.1 hp').1) (Nat.not_lt_of_le hp.1)
      · apply hmade.new i j
        · change m.heap.atoms.size ≤ i
          omega
        · exact hp.2.2
        · change i + m'.heap.atoms.size = j + m.heap.atoms.size
          omega
  have hglobals : ∀ {atoms : List Nat} {m m₁ : Machine}, a.view atoms m = a.view atoms m₁ →
      m₁.globals.filter a.reads = m.globals.filter a.reads := fun h =>
    (congrArg Machine.globals h).symm
  have hcontents : ∀ {atoms : List Nat} {m m₁ : Machine} {l : Nat},
      a.view atoms m = a.view atoms m₁ →
      a.sees atoms l = true → m₁.heap.contents l = m.heap.contents l := by
    intro atoms m m₁ l h hl
    have hview := congrArg (fun m => m.heap.contents l) h
    simpa only [contents_view, if_pos hl] using hview.symm
  exact
    { globals := by
        rw [hglobals hsame, hglobals hsame']
        refine List.rel_filter ?_ hm.globals
        rintro _ _ ⟨_⟩
        rfl
      places := hplaces
      known := by
        simp only [Machine.made, List.length_append, List.length_range', h.known]
        omega
      contents := fun i j hij hi hj => by
        rw [hcontents hsame hi, hcontents hsame' hj]
        exact hm.atoms i j hij
      bounds := hbounded
      injective := hm.injective
      fresh := fun i j hij => hnumber ▸ hnumber' ▸ hm.fresh i j hij
      settled := fun id hid => by
        obtain ⟨hpos, hle, -⟩ := hm.settled id hid
        exact ⟨hpos, hnone ▸ hle⟩
      limit := hlimit.symm.trans hm.limit
      limit' := hlimit'.symm.trans hm.limit' }

/-- The stages have no part in what is seen of machines. -/
theorem onStage (h : a.Kindred W atoms m atoms' m') (s s' : Stage) :
  a.Kindred W atoms (m.onStage s) atoms' (m'.onStage s')
  := { h with }

/-- Machines stay kindred when what happens on the first one spares the coroutine. -/
theorem spared {t : Track} (h : a.Kindred W t.atoms m atoms' m') (hs : a.Spares t m m₁) :
  a.Kindred W t.atoms m₁ atoms' m'
  where
  globals := hs.globals ▸ h.globals
  places := h.places
  known := h.known
  contents i j hij hi hj := hs.atoms i hi ▸ h.contents i j hij hi hj
  bounds i j hij := ⟨Nat.lt_of_lt_of_le (h.bounds i j hij).1 hs.made, (h.bounds i j hij).2⟩
  injective := h.injective
  fresh i j hij := ⟨Nat.lt_of_lt_of_le (h.fresh i j hij).1 hs.numbered, (h.fresh i j hij).2⟩
  settled := h.settled
  limit := hs.limit h.limit
  limit' := h.limit'

/-- Machines stay kindred when the coroutine is started on both of them. -/
theorem launched (h : a.Kindred W atoms m atoms' m') (hpos : 0 < a.execution) :
  a.Kindred (W.launching m m' a.execution) atoms (m.launched.onStage a.stage) atoms'
    (m'.launched.onStage a.stage)
  := by
  have hle := W.le_launching m m' a.execution
  have hfirst : (W.pairing m.nextId m'.nextId).Injective := by
    apply h.injective.pairing
    intro i j hij
    have := h.fresh i j hij
    omega
  have hsecond :
      ((W.pairing m.nextId m'.nextId).pairing (m.nextId + 1) (m'.nextId + 1)).Injective := by
    apply hfirst.pairing
    rintro i j (hij | ⟨rfl, rfl⟩)
    · have := h.fresh i j hij
      omega
    · omega
  exact
    { globals := Binding.Linked.mono_all hle h.globals
      places := h.places
      known := h.known
      contents := fun i j hij hi hj => (h.contents i j hij hi hj).mono hle
      bounds := h.bounds
      injective := ⟨hsecond.ids, hsecond.atoms⟩
      fresh := by
        rintro i j ((hij | ⟨rfl, rfl⟩) | ⟨rfl, rfl⟩)
        · have := h.fresh i j hij
          exact ⟨by change _ < m.nextId + 2; omega, by change _ < m'.nextId + 2; omega⟩
        · exact ⟨Nat.lt_add_of_pos_right Nat.two_pos, Nat.lt_add_of_pos_right Nat.two_pos⟩
        · exact ⟨Nat.lt_succ_self _, Nat.lt_succ_self _⟩
      settled := by
        rintro id (hid | rfl)
        · exact h.settled id hid
        · exact ⟨hpos, Nat.le_refl _⟩
      limit := h.limit
      limit' := h.limit' }

end Actor.Kindred

/-! ### In step -/

/-- What is known of a machine and itself: all the numbers that it has given out. -/
def Machine.identity (m : Machine) : Link where
  ids i j := i = j ∧ i < m.nextId
  atoms i j := i = j ∧ i < m.heap.atoms.size
  executions id := 0 < id ∧ id ≤ m.heap.executions.size

/-- A machine without a limit of steps in whose globals and atoms all numbers have been given
out. -/
structure Machine.Closed (m : Machine) : Prop where
  globals : List.Forall₂ (Binding.Alike (Value.Linked m.identity)) m.globals m.globals
  atoms : ∀ l, l < m.heap.atoms.size →
    Value.Linked m.identity (m.heap.contents l) (m.heap.contents l)
  limit : m.limit = none

/-- A coroutine that is to be started, in which all numbers have been given out. -/
structure Actor.Closed (a : Actor) (m : Machine) : Prop where
  execution : m.heap.executions.size < a.execution
  coroutine : Value.Linked m.identity a.coroutine a.coroutine
  resolve : Value.Linked m.identity a.resolve a.resolve
  reject : Value.Linked m.identity a.reject a.reject
  context : Context.Alike (Value.Linked m.identity) a.context a.context
  outcomes : ∀ n, Ended.Linked m.identity (a.outcomes n) (a.outcomes n)

/-- A coroutine is in step on two machines: it has done the same stints, and what it can see is
linked. -/
structure Actor.InStep (a : Actor) (m₀ : Machine) (W : Link) (t : Track) (m : Machine) (t' : Track)
    (m' : Machine) : Prop where
  identity : m₀.identity ≤ W
  kindred : a.Kindred W t.atoms m t'.atoms m'
  stints : List.Forall₂ (Stint.Linked W) t.stints t'.stints

/-- The stage on which a coroutine is started is linked to itself. -/
theorem Actor.Closed.stage_linked {m₀ : Machine} (ha : a.Closed m₀) (hW : m₀.identity ≤ W) :
  Stage.Linked W a.stage a.stage
  where
  deliveries n := (ha.outcomes n).mono hW
  late _ := rfl
  requests := .nil
  pending := .nil
  results := .nil
  lookups := .some .nil
  states := rfl

/-- The starts of a coroutine on two machines are linked. -/
theorem Actor.Closed.launch_linked {m₀ : Machine} (ha : a.Closed m₀) (hW : m₀.identity ≤ W)
    (hid : m.nextExecution = a.execution) (hid' : m'.nextExecution = a.execution) :
  Launch.Linked (W.launching m m' a.execution)
    (.coroutine a.execution a.coroutine (m.successFor a.resolve) (m.failureFor a.reject))
    (.coroutine a.execution a.coroutine (m'.successFor a.resolve) (m'.failureFor a.reject))
  := by
  have hle := hW.trans (W.le_launching m m' a.execution)
  rw [Machine.successFor, Machine.failureFor, Machine.successFor, Machine.failureFor, hid, hid']
  exact .coroutine _ (ha.coroutine.mono hle)
    (.settle (.inl (.inr ⟨rfl, rfl⟩)) (.inr rfl) (ha.resolve.mono hle))
    (.settle (.inr ⟨rfl, rfl⟩) (.inr rfl) (ha.reject.mono hle))

/-- A coroutine that is resumed comes to the same in every context. -/
theorem ends_resumption {p : Value × Value} {work : Work} {r : Ended Value}
    (hwork : resumption? p = some work) (h : (Launch.work work).Ends m r m₁) :
  m₁.context = m.context ∧
    ∀ c, (Launch.work work).Ends { m with context := c } r { m₁ with context := c }
  := by
  unfold resumption? at hwork
  split at hwork <;> cases hwork
  · exact h.ignoresContext
  · exact h.ignoresContext

/-- A coroutine takes its turn inside of a level. -/
theorem Actor.Begins.levels_ne_nil {t : Track} {l : Launch} (h : a.Begins t m l m₁) :
  m₁.levels ≠ []
  := by
  cases h with
  | start => exact List.cons_ne_nil _ _
  | resume _ _ _ hl => exact hl

/-- Continuations that are called with linked arguments let linked work wait. -/
theorem resumption?_linked {p p' : Value × Value} (h : Pending.Rel (Value.Linked W) p p') :
  Option.Rel (Work.Linked W) (resumption? p) (resumption? p')
  := by
  obtain ⟨target, argument⟩ := p
  obtain ⟨target', argument'⟩ := p'
  obtain ⟨htarget, hargument⟩ := h
  dsimp only at htarget hargument
  cases htarget with
  | awaitContinuation _ hs hk => exact .some (.resumption hs hk hargument)
  | awaitFailure _ hs hk =>
    have hcondition := hargument
    cases hargument with
    | condition hd => exact .some (.resumption hs hk hcondition)
    | _ => exact .none
  | _ => exact .none

namespace Actor.InStep

variable {m₀ : Machine} {t t' : Track} {l l' : Launch} {r : Ended Value}

/-- A coroutine is in step with itself before it is started. -/
theorem initial (hm : m.Closed) (ha : a.Closed m) :
  a.InStep m m.identity ⟨List.range m.heap.atoms.size, []⟩ m ⟨List.range m.heap.atoms.size, []⟩ m
  where
  identity := le_refl _
  kindred :=
    { globals := by
        refine List.rel_filter ?_ hm.globals
        rintro _ _ ⟨_⟩
        rfl
      places := fun i j => by
        dsimp only
        simp only [List.getElem?_eq_some_iff, List.length_range, List.getElem_range]
        constructor
        · rintro ⟨rfl, hi⟩
          exact ⟨i, ⟨hi, rfl⟩, hi, rfl⟩
        · rintro ⟨_, ⟨hp, rfl⟩, _, rfl⟩
          exact ⟨rfl, hp⟩
      known := rfl
      contents := by
        rintro i _ ⟨rfl, hi⟩ _ _
        exact hm.atoms i hi
      bounds := by
        rintro i _ ⟨rfl, hi⟩
        exact ⟨hi, hi⟩
      injective := ⟨fun _ _ _ _ h h' => by rw [h.1, h'.1], fun _ _ _ _ h h' => by rw [h.1, h'.1]⟩
      fresh := by
        rintro i _ ⟨rfl, hi⟩
        exact ⟨hi, hi⟩
      settled := fun id hid => ⟨hid.1, hid.2.trans (Nat.le_of_lt ha.execution)⟩
      limit := hm.limit
      limit' := hm.limit }
  stints := .nil

/-- A coroutine that begins the same on two machines on which it is in step comes to the same where
nothing is to be seen but what it can see. -/
theorem meet (h : a.InStep m₀ W t m t' m') (ha : a.Closed m₀) {m₁' m₃ : Machine}
    (hbegins : a.Begins t m l m₁) (hbegins' : a.Begins t' m' l' m₁')
    (hends : l.Ends (a.view t.atoms m₁) r m₃) :
  ∃ W₁ W₂ r' m₃' c c', W ≤ W₁ ∧ W₁ ≤ W₂ ∧ a.Kindred W₁ t.atoms m₁ t'.atoms m₁' ∧
    l'.Ends (a.view t'.atoms m₁') r' m₃' ∧ Ended.Linked W₂ r r' ∧
    Machine.Linked (.apart W₁ m₁ m₁') 0 W₂ { m₃ with context := c } { m₃' with context := c' }
  := by
  have hstints := h.stints
  cases hbegins with
  | start ht hid hc =>
    cases hbegins' with
    | resume ht' => rw [ht, ht'] at hstints; cases hstints
    | start ht' hid' hc' =>
      have hkindred := h.kindred.launched (Nat.zero_lt_of_lt ha.execution)
      have hle := h.identity.trans (W.le_launching m m' a.execution)
      have hcontext : Context.Alike (Value.Linked (W.launching m m' a.execution))
          (m.launched.onStage a.stage).context (m'.launched.onStage a.stage).context := by
        change Context.Alike _ (m.context.driving m.nextExecution)
          (m'.context.driving m'.nextExecution)
        rw [hc, hid, hc', hid']
        exact Context.Linked.mono hle (ha.context.driving a.execution)
      have hlaunch := ha.launch_linked h.identity hid hid'
      have hmachine := hkindred.view_linked (hid ▸ m.launched_state?) (hid' ▸ m'.launched_state?)
        (List.cons_ne_nil _ _) (List.cons_ne_nil _ _) (ha.stage_linked hle) hcontext
      obtain ⟨W₂, r', m₃', hW, hends', hr, hm⟩ := hends.linked hlaunch hmachine
      exact ⟨_, W₂, r', m₃', _, _, W.le_launching m m' a.execution, hW, hkindred, hends', hr, hm⟩
  | @resume last earlier next rest work ht hp hw hl hs =>
    cases hbegins' with
    | start ht' => rw [ht, ht'] at hstints; cases hstints
    | @resume last' earlier' next' rest' work' ht' hp' hw' hl' hs' =>
      rw [ht, ht'] at hstints
      obtain _ | ⟨hlast, -⟩ := hstints
      have hpending := hlast.stage.pending
      rw [hp, hp'] at hpending
      obtain _ | ⟨hnext, hrest⟩ := hpending
      have hwork := resumption?_linked hnext
      rw [hw, hw'] at hwork
      obtain ⟨hwork⟩ := hwork
      have hkindred := h.kindred.onStage { last.stage with pending := rest }
        { last'.stage with pending := rest' }
      have hmachine := hkindred.view_linked hs (by rw [hlast.state]; exact hs') hl hl'
        { hlast.stage with pending := hrest } (.mk .nil : Context.Alike _ .empty .empty)
      obtain ⟨W₂, r', m₃', hW, hends', hr, hm⟩ :=
        ((ends_resumption hw hends).2 .empty).linked (.work hwork) hmachine
      refine ⟨W, W₂, r', { m₃' with context := m'.context }, .empty, m₃'.context, le_refl W, hW,
        hkindred, (ends_resumption hw' hends').2 m'.context, hr, hm⟩

/-- A coroutine that is in step on two machines takes its turn on the second one as it has done on
the first one, when it can begin there and keeps to what it can see. -/
theorem follow (h : a.InStep m₀ W t m t' m') (ha : a.Closed m₀) {s : Track}
    (hturn : a.Turn t m s m₁) (hbegins : a.Begins t' m' l' m₂) (haloof : a.Aloof t' l' m₂) :
  ∃ s' m₂', a.Turn t' m' s' m₂'
  := by
  obtain ⟨hbegins₁, hends, hworks, hstate, hview, hsame, hnone⟩ := hturn
  obtain ⟨W₁, W₂, r', m₃', c, c', -, -, hkindred, hview', -, hm⟩ := h.meet ha hbegins₁ hbegins hview
  obtain ⟨m₂', hends', hsame'⟩ := haloof r' m₃' hview'
  obtain ⟨works', hworks'⟩ := hends'.lets hkindred.limit'
  have hnone' : m₃'.heap.executions.size = a.execution :=
    (congrArg Array.size hm.executions).symm.trans hnone
  obtain ⟨state', -, hstate'⟩ := state?_eq_of_view hsame' (Nat.zero_lt_of_lt ha.execution) hnone'
  exact ⟨_, _, .mk hbegins hends' hworks' hstate' hview' hsame' hnone'⟩

/-- The work that stints have let wait is linked when the machines are on which they were taken. -/
theorem works_linked {works works' : List Work} {m₂' : Machine} (hl : m.levels ≠ [])
    (hl' : m'.levels ≠ []) (hworks : Machine.Lets works m m₂) (hworks' : Machine.Lets works' m' m₂')
    (hm : Level.Linked (.apart W m m') W' 0 m₂.levels m₂'.levels) :
  List.Forall₂ (Work.Linked W') works works'
  := by
  obtain ⟨steps, hlevels⟩ := hworks.innermost hl
  obtain ⟨steps', hlevels'⟩ := hworks'.innermost hl'
  rw [hlevels, hlevels'] at hm
  generalize hq : m.innermost ++ works = queue, hq' : m'.innermost ++ works' = queue' at hm
  cases hm with
  | innermost h =>
    rw [List.append_cancel_left hq, List.append_cancel_left hq']
    exact h

/-- A coroutine stays in step when it takes its turn on both machines. -/
theorem turn (h : a.InStep m₀ W t m t' m') (ha : a.Closed m₀) {s s' : Track}
    (hturn : a.Turn t m s m₁) (hturn' : a.Turn t' m' s' m₂) :
  ∃ W', W ≤ W' ∧ a.InStep m₀ W' s m₁ s' m₂
  := by
  obtain ⟨hbegins, hends, hworks, hstate, hview, hsame, hnone⟩ := hturn
  obtain ⟨hbegins', hends', hworks', hstate', hview', hsame', hnone'⟩ := hturn'
  obtain ⟨W₁, W₂, r', m₃', c, c', hW₁, hW₂, hkindred, hends₃, hr, hm⟩ :=
    h.meet ha hbegins hbegins' hview
  obtain ⟨rfl, rfl⟩ := hends₃.unique hview'
  have hW := hW₁.trans hW₂
  have hpos := Nat.zero_lt_of_lt ha.execution
  obtain ⟨hstage, hlevels, -⟩ := parts_eq_of_view hsame
  obtain ⟨hstage', hlevels', -⟩ := parts_eq_of_view hsame'
  obtain ⟨s, hs, hs₂⟩ := state?_eq_of_view hsame hpos hnone
  obtain ⟨s', hs', hs₂'⟩ := state?_eq_of_view hsame' hpos hnone'
  refine ⟨W₂, hW, h.identity.trans hW, (hkindred.after hW₂ hm hsame hsame' hnone).onStage _ _, ?_⟩
  refine .cons ⟨hstage ▸ hstage' ▸ hm.stage, ?_, hr, ?_⟩ (h.stints.imp fun _ _ hst => hst.mono hW)
  · apply works_linked hbegins.levels_ne_nil hbegins'.levels_ne_nil hworks hworks'
    rw [← hlevels, ← hlevels']
    exact hm.levels
  · have hsame₃ : some s = some s' := hs.symm.trans ((hm.state?_eq a.execution).trans hs')
    apply Option.some.inj
    rw [← hstate, ← hstate', hs₂, hs₂', hsame₃]

end Actor.InStep

end Skein
