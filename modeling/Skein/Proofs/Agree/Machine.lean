import Skein.Proofs.Agree

/-!
# Operations of the machine agree

Each operation of the machine agrees with itself on linked arguments.  A fresh number is
paired with the fresh number of the other machine, which is where the world grows.
-/

namespace Skein

variable {L : Likeness} {n : Nat} {W W' : Link} {α β : Type}

/-- The link that also pairs two functions or thunks. -/
def Link.pairing (W : Link) (i j : Nat) : Link :=
  { W with ids := fun a b => W.ids a b ∨ (a = i ∧ b = j) }

/-- Pairing two functions or thunks adds to what is known. -/
theorem Link.le_pairing (W : Link) (i j : Nat) :
  W ≤ W.pairing i j
  := ⟨fun _ _ h => .inl h, fun _ _ h => h, fun _ h => h⟩

/-- The link that also pairs two atoms. -/
def Link.locating (W : Link) (i j : Nat) : Link :=
  { W with atoms := fun a b => W.atoms a b ∨ (a = i ∧ b = j) }

/-- Pairing two atoms adds to what is known. -/
theorem Link.le_locating (W : Link) (i j : Nat) :
  W ≤ W.locating i j
  := ⟨fun _ _ h => h, fun _ _ h => .inl h, fun _ h => h⟩

/-- The link in which values may settle one more execution. -/
def Link.settling (W : Link) (id : Nat) : Link :=
  { W with executions := fun a => W.executions a ∨ a = id }

/-- One more execution adds to what is known. -/
theorem Link.le_settling (W : Link) (id : Nat) :
  W ≤ W.settling id
  := ⟨fun _ _ h => h, fun _ _ h => h, fun _ h => .inl h⟩

/-- A link stays injective when two numbers are paired that belong together. -/
theorem Link.Injective.pairing (hW : W.Injective) {i j : Nat}
    (h : ∀ a b, W.ids a b → (a = i ↔ b = j)) :
  (W.pairing i j).Injective
  where
  ids := by
    rintro a b a' b' (h₁ | ⟨rfl, rfl⟩) (h₂ | ⟨rfl, rfl⟩)
    · exact hW.ids a b a' b' h₁ h₂
    · exact h a b h₁
    · rw [eq_comm, h a' b' h₂, eq_comm]
    · simp
  atoms := hW.atoms

/-- A link stays injective when two atoms are paired that belong together. -/
theorem Link.Injective.locating (hW : W.Injective) {i j : Nat}
    (h : ∀ a b, W.atoms a b → (a = i ↔ b = j)) :
  (W.locating i j).Injective
  where
  ids := hW.ids
  atoms := by
    rintro a b a' b' (h₁ | ⟨rfl, rfl⟩) (h₂ | ⟨rfl, rfl⟩)
    · exact hW.atoms a b a' b' h₁ h₂
    · exact h a b h₁
    · rw [eq_comm, h a' b' h₂, eq_comm]
    · simp

/-- Atoms that are made next stand for each other. -/
theorem Link.Made.locating {size size' : Nat} (h : W.Made L size size') :
  (W.locating size size').Made L (size + 1) (size' + 1)
  where
  least := Nat.le_succ_of_le h.least
  grown := by
    have := h.grown
    omega
  known := by
    rintro i j (hij | ⟨rfl, rfl⟩)
    · exact h.known i j hij
    · exact .inr ⟨h.least, h.grown⟩
  new i j hi hlt hij := by
    by_cases hnew : i = size
    · have := h.grown
      exact .inr ⟨hnew, by omega⟩
    · exact .inl (h.new i j hi (by omega) hij)
  bounded hL := by
    rintro i j (hij | ⟨rfl, -⟩)
    · exact Nat.lt_succ_of_lt (h.bounded hL i j hij)
    · exact Nat.lt_succ_self _

/-- The contents of atoms after one has been made. -/
theorem Heap.contents_push (h : Heap) (v : Value) (i : Nat) :
  contents { h with atoms := h.atoms.push v } i = if i = h.atoms.size then v else h.contents i
  := by
  rw [contents, contents, Array.getElem?_push]
  split <;> rfl

/-- The contents of atoms after one has been set. -/
theorem Heap.contents_set (h : Heap) (l : Nat) (v : Value) (i : Nat) :
  contents { h with atoms := h.atoms.setIfInBounds l v } i =
    if l = i then if l < h.atoms.size then v else .nil else h.contents i
  := by
  rw [contents, contents, Array.getElem?_setIfInBounds]
  split
  · split <;> rfl
  · rfl

namespace Run.Agree

/-! ### Numbers -/

/-- Fresh numbers are paired. -/
theorem freshId :
  Agree L n W (fun W i j => W.ids i j) Run.freshId Run.freshId
  := by
  apply modifyGet
  intro m m' hm
  refine ⟨W.pairing m.nextId m'.nextId, W.le_pairing _ _, .inr ⟨rfl, rfl⟩, ?_⟩
  have hinjective : (W.pairing m.nextId m'.nextId).Injective := by
    apply hm.injective.pairing
    intro i j h
    have := hm.fresh i j h
    omega
  have hm₁ : Machine.Linked L n W { m with nextId := m.nextId + 1 }
      { m' with nextId := m'.nextId + 1 } :=
    { hm with
      fresh := fun i j h => by
        have := hm.fresh i j h
        dsimp only
        omega }
  apply hm₁.mono (W.le_pairing _ _) (fun _ _ h => h) hinjective _ hm.settled
  rintro i j (h | ⟨rfl, rfl⟩)
  · exact hm₁.fresh i j h
  · exact ⟨Nat.lt_succ_self _, Nat.lt_succ_self _⟩

/-- Functions with fresh numbers agree. -/
theorem native {make make' : Nat → Native Value}
    (h : ∀ W' i j, W ≤ W' → W'.ids i j →
      Value.Linked W' (.native (make i)) (.native (make' j))) :
  Agree L n W Value.Linked (Run.native make) (Run.native make')
  := by
  apply bind freshId
  intro W' i j hW hij
  exact pure (h W' i j hW hij)

/-- Thunks of linked functions agree. -/
theorem thunk {resume resume' : Value} (h : Value.Linked W resume resume') :
  Agree L n W Value.Linked (Run.thunk resume) (Run.thunk resume')
  := by
  apply bind freshId
  intro W' i j hW hij
  exact pure (.thunk hij (h.mono hW))

/-! ### Arguments and texts -/

/-- Alike arguments are as many. -/
theorem checkArity (arity : Arity) (name : String) {vs vs' : List Value}
    (h : List.Forall₂ (Value.Linked W) vs vs') :
  Agree L n W Same (Run.checkArity arity name vs) (Run.checkArity arity name vs')
  := by
  rw [Run.checkArity, Run.checkArity, h.length_eq]
  split
  · exact pure rfl
  · exact raise _ _

/-- The texts of linked values agree. -/
theorem textOf {v v' : Value} (h : Value.Linked W v v') :
  Agree L n W Same (Run.textOf v) (Run.textOf v')
  := by
  intro m m' hm
  rw [Run.textOf, Run.textOf, h.text?_eq hm.atoms hm.executions]
  split
  · exact .ok (le_refl W) rfl hm
  · exact .exhausted (le_refl W) hm

/-- The texts of linked values for a reader agree. -/
theorem plainTextOf {v v' : Value} (h : Value.Linked W v v') :
  Agree L n W Same (Run.plainTextOf v) (Run.plainTextOf v')
  := by
  intro m m' hm
  rw [Run.plainTextOf, Run.plainTextOf, h.plainText?_eq hm.atoms hm.executions]
  split
  · exact .ok (le_refl W) rfl hm
  · exact .exhausted (le_refl W) hm

/-- What observers see of linked values agrees. -/
theorem shown {v v' : Value} (h : Value.Linked W v v') :
  Agree L n W Same (Run.shown v) (Run.shown v')
  := by
  intro m m' hm
  rw [Run.shown, Run.shown, h.shown?_eq hm.atoms hm.executions]
  split
  · exact .ok (le_refl W) rfl hm
  · exact .exhausted (le_refl W) hm

/-- Printing agrees. -/
theorem printLine (line : String) :
  Agree L n W Same (Run.printLine line) (Run.printLine line)
  := by
  apply change
  intro m m' hm
  exact { hm with out := fun hL => by rw [hm.out hL] }

/-- Writing the journal agrees. -/
theorem record (e : Entry) :
  Agree L n W Same (Run.record e) (Run.record e)
  := by
  apply change
  intro m m' hm
  exact { hm with journal := fun hL => by rw [hm.journal hL] }

/-- Lists of computations agree. -/
theorem mapM {R : Link → α → β → Prop} {γ δ : Type} {f : γ → Run α} {f' : δ → Run β}
    (hR : ∀ {W W' a b}, W ≤ W' → R W a b → R W' a b) {as : List γ} {bs : List δ}
    (h : List.Forall₂ (fun a b => ∀ W', W ≤ W' → Agree L n W' R (f a) (f' b)) as bs) :
  Agree L n W (fun W => List.Forall₂ (R W)) (as.mapM f) (bs.mapM f')
  := by
  induction as generalizing W bs with
  | nil =>
    cases h
    rw [List.mapM_nil, List.mapM_nil]
    exact pure .nil
  | cons a as ih =>
    cases h with | cons ha has
    rw [List.mapM_cons, List.mapM_cons]
    apply bind (ha W (le_refl W))
    intro W₁ b b' hW₁ hb
    apply bind (ih (has.imp fun _ _ h W' hW' => h W' (le_trans hW₁ hW')))
    intro W₂ bs bs' hW₂ hbs
    exact pure (.cons (hR hW₂ hb) hbs)

/-! ### Names -/

/-- Noting a lookup agrees. -/
theorem noteLookup (x : Symbol) :
  Agree L n W Same (Run.noteLookup x) (Run.noteLookup x)
  := by
  apply change
  intro m m' hm
  refine { hm with stage := { hm.stage with lookups := ?_, states := ?_ } }
  · have hlookups := hm.stage.lookups
    dsimp only
    revert hlookups
    generalize m.stage.lookups = o, m'.stage.lookups = o'
    rintro (hs | _)
    · exact .some (.cons (.mk hm.context.frames) hs)
    · exact .none
  · dsimp only
    rw [hm.stage.states, hm.drivenState?_eq]

/-- Looking a name up outside of the lexical bindings agrees. -/
theorem lookupFree (x : Symbol) :
  Agree L n W Value.Linked (Run.lookupFree x) (Run.lookupFree x)
  := by
  apply bind (noteLookup x)
  intro W₁ _ _ hW₁ _
  apply get
  intro m m' hm
  have hrel : Option.Rel (Value.Linked W₁) (m.context.lookup? x <|> m.globals.lookup x)
      (m'.context.lookup? x <|> m'.globals.lookup x) := by
    have hc := hm.context.lookup?_rel x
    revert hc
    generalize m.context.lookup? x = o, m'.context.lookup? x = o'
    rintro (hv | _)
    · exact .some hv
    · exact Binding.Alike.lookup_rel hm.globals x
  revert hrel
  generalize (m.context.lookup? x <|> m.globals.lookup x) = o
  generalize (m'.context.lookup? x <|> m'.globals.lookup x) = o'
  rintro (hv | _)
  · exact pure hv _ _ hm
  · exact raiseWith _ _ (.scalar _) _ _ hm

/-- Looking a name up agrees where it has linked values. -/
theorem lookup {env env' : Env} {x : Symbol}
    (h : Option.Rel (Value.Linked W) (List.lookup x env) (List.lookup x env')) :
  Agree L n W Value.Linked (Run.lookup env x) (Run.lookup env' x)
  := by
  rw [Run.lookup, Run.lookup]
  revert h
  generalize List.lookup x env = o, List.lookup x env' = o'
  rintro (hv | _)
  · exact pure hv
  · exact lookupFree x

/-- Defining a global agrees. -/
theorem define (x : Symbol) {v v' : Value} (h : Value.Linked W v v') :
  Agree L n W Same (Run.define x v) (Run.define x v')
  := by
  apply change
  intro m m' hm
  exact { hm with globals := Binding.Alike.setEntry hm.globals x h }

/-! ### Atoms -/

/-- Making an atom agrees: the new atoms are paired. -/
theorem newAtom {v v' : Value} (h : Value.Linked W v v') :
  Agree L n W Value.Linked (Run.newAtom v) (Run.newAtom v')
  := by
  apply modifyGet
  intro m m' hm
  have hW := W.le_locating m.heap.atoms.size m'.heap.atoms.size
  refine ⟨W.locating m.heap.atoms.size m'.heap.atoms.size, hW, .atom (.inr ⟨rfl, rfl⟩), ?_⟩
  exact {
    globals := Binding.Linked.mono_all hW hm.globals
    atoms := by
      rintro i j (hij | ⟨rfl, rfl⟩)
      · have hnew := hm.made.eq_iff hij
        rw [Heap.contents_push, Heap.contents_push]
        by_cases hi : i = m.heap.atoms.size
        · rw [if_pos hi, if_pos (hnew.1 hi)]
          exact h.mono hW
        · rw [if_neg hi, if_neg fun hj => hi (hnew.2 hj)]
          exact (hm.atoms i j hij).mono hW
      · rw [Heap.contents_push, Heap.contents_push, if_pos rfl, if_pos rfl]
        exact h.mono hW
    made := by
      dsimp only
      rw [Array.size_push, Array.size_push]
      exact hm.made.locating
    executions := hm.executions
    context := Context.Linked.mono hW hm.context
    levels := hm.levels.mono hW
    limit := hm.limit
    limit' := hm.limit'
    clock := hm.clock
    stage := hm.stage.imp fun _ _ hv => hv.mono hW
    injective := hm.injective.locating fun i j hij => hm.made.eq_iff hij
    fresh := hm.fresh
    settled := hm.settled
    ownBound := hm.ownBound
    ownState := hm.ownState
    out := hm.out
    timers := fun hL => (hm.timers hL).imp fun _ _ ht => ht.imp fun _ _ hv => hv.mono hW
    scheduled := hm.scheduled
    journal := hm.journal }

/-- Reading an atom agrees. -/
theorem readAtom {location location' : Nat} (h : W.atoms location location') :
  Agree L n W Value.Linked (Run.readAtom location) (Run.readAtom location')
  := by
  apply get
  intro m m' hm
  exact pure (hm.atoms _ _ h) _ _ hm

/-- Replacing the contents of an atom agrees. -/
theorem writeAtom {location location' : Nat} (hl : W.atoms location location') {v v' : Value}
    (h : Value.Linked W v v') :
  Agree L n W Same (Run.writeAtom location v) (Run.writeAtom location' v')
  := by
  apply change
  intro m m' hm
  refine { hm with atoms := ?_, made := ?_ }
  · intro i j hij
    have hsame := hm.injective.atoms _ _ _ _ hl hij
    have hlt := hm.made.lt_iff hl
    rw [Heap.contents_set, Heap.contents_set]
    by_cases hi : location = i
    · rw [if_pos hi, if_pos (hsame.1 hi)]
      by_cases hin : location < m.heap.atoms.size
      · rw [if_pos hin, if_pos (hlt.1 hin)]
        exact h
      · rw [if_neg hin, if_neg fun hin' => hin (hlt.2 hin')]
        exact .scalar .nil
    · rw [if_neg hi, if_neg fun hj => hi (hsame.2 hj)]
      exact hm.atoms i j hij
  · dsimp only
    rw [Array.size_setIfInBounds, Array.size_setIfInBounds]
    exact hm.made

/-! ### Executions -/

/-- Making an execution agrees: it is the same one. -/
theorem newExecution :
  Agree L n W (fun W id id' => id = id' ∧ W.executions id) Run.newExecution Run.newExecution
  := by
  apply modifyGet
  intro m m' hm
  have hsettled : ∀ id, (W.settling (m.heap.executions.size + 1)).executions id →
      0 < id ∧ id ≤ m.heap.executions.size + 1 ∧ id ≠ L.own := by
    rintro id (h | rfl)
    · have := hm.settled id h
      omega
    · have := hm.ownBound
      omega
  have hm₁ : Machine.Linked L n W
      { m with heap := { m.heap with executions := m.heap.executions.push .running } }
      { m' with heap := { m'.heap with executions := m'.heap.executions.push .running } } :=
    { hm with
      executions := by rw [hm.executions]
      settled := fun id h => by
        rw [Array.size_push]
        exact hsettled id (.inl h)
      ownBound := by
        rw [Array.size_push]
        exact Nat.le_succ_of_le hm.ownBound
      ownState := by
        intro s hs
        rw [Heap.state?] at hs
        split at hs
        · cases hs
        · rename_i h0
          rw [Array.getElem?_push] at hs
          split at hs
          · cases hs
            rfl
          · apply hm.ownState s
            rw [Heap.state?, if_neg h0]
            exact hs }
  refine ⟨W.settling (m.heap.executions.size + 1), W.le_settling _, ?_, ?_⟩
  · dsimp only
    rw [hm.executions]
    exact ⟨rfl, .inr rfl⟩
  · apply hm₁.mono (W.le_settling _) (fun _ _ h => h) ⟨hm.injective.ids, hm.injective.atoms⟩
      hm.fresh
    intro id h
    rw [Array.size_push]
    exact hsettled id h

/-- The state of an execution agrees. -/
theorem executionState (id : Nat) :
  Agree L n W Same (Run.executionState id) (Run.executionState id)
  := by
  apply get
  intro m m' hm
  rw [hm.state?_eq]
  exact pure rfl _ _ hm

/-- Changing the state of an execution agrees, but the execution that is observed is not
settled. -/
theorem changeState {id : Nat} {next : ExecutionState}
    (h : next.isTerminal = false ∨ (0 < id ∧ id ≠ L.own)) :
  Agree L n W Same (Run.changeState id next) (Run.changeState id next)
  := by
  apply change
  intro m m' hm
  refine { hm with executions := ?_, settled := ?_, ownBound := ?_, ownState := ?_ }
  · dsimp only
    rw [hm.executions]
  · dsimp only
    rw [Array.size_modify]
    exact hm.settled
  · dsimp only
    rw [Array.size_modify]
    exact hm.ownBound
  · intro s hs
    rw [Heap.state?] at hs
    split at hs
    · cases hs
    · rename_i h0
      rw [Array.getElem?_modify] at hs
      have hstate : ∀ t, m.heap.executions[L.own - 1]? = some t → t.isTerminal = false := by
        intro t ht
        apply hm.ownState t
        rw [Heap.state?, if_neg h0]
        exact ht
      split at hs
      · obtain ⟨t, ht, rfl⟩ := Option.map_eq_some_iff.1 hs
        rcases h with h | ⟨hid, hne⟩
        · rw [ExecutionState.change, hstate t ht]
          exact h
        · omega
      · exact hstate s hs

/-- Settling an execution that values may settle agrees. -/
theorem finish {id : Nat} (outcome : Outcome) (h : W.executions id) :
  Agree L n W Same (Run.finish id outcome) (Run.finish id outcome)
  := by
  intro m m' hm
  have hid := hm.settled id h
  refine bind (executionState id) ?_ m m' hm
  rintro W₁ state _ _ rfl
  apply bind (changeState (.inr ⟨hid.1, hid.2.2⟩))
  intro W₂ _ _ _ _
  exact pure rfl

/-- Changing the state of the execution of linked contexts agrees. -/
theorem changeStateIn {c c' : Context Value} (h : Context.Alike (Value.Linked W) c c')
    {next : ExecutionState} (hnext : next.isTerminal = false) :
  Agree L n W Same (Run.changeStateIn c next) (Run.changeStateIn c' next)
  := by
  rw [Run.changeStateIn, Run.changeStateIn, h.execution]
  split
  · exact changeState (.inl hnext)
  · exact pure rfl

/-! ### Dynamic contexts -/

/-- The dynamic context agrees. -/
theorem capture :
  Agree L n W (fun W => Context.Alike (Value.Linked W)) Run.capture Run.capture
  := by
  apply get
  intro m m' hm
  exact pure hm.context _ _ hm

/-- Entering a frame agrees. -/
theorem pushFrame {bs bs' : List (Symbol × Value)}
    (h : List.Forall₂ (Binding.Alike (Value.Linked W)) bs bs') :
  Agree L n W Same (Run.pushFrame bs) (Run.pushFrame bs')
  := by
  apply modifyGet
  intro m m' hm
  refine ⟨W, le_refl W, hm.context.depth_eq, { hm with context := ?_ }⟩
  apply Context.Alike.of_parts
  · have hdepth := hm.context.depth_eq
    dsimp only [Context.push]
    rw [hdepth]
    exact .cons (.mk h) hm.context.frames
  · exact hm.context.execution

/-- Leaving frames agrees. -/
theorem popFrames (depth : Nat) :
  Agree L n W Same (Run.popFrames depth) (Run.popFrames depth)
  := by
  apply get
  intro m m' hm
  have hframes : ∀ {fs fs'}, List.Forall₂ (Frame.Alike (Value.Linked W)) fs fs' →
      (∃ gs gs', Context.framesTo depth fs = .ok gs ∧ Context.framesTo depth fs' = .ok gs' ∧
        List.Forall₂ (Frame.Alike (Value.Linked W)) gs gs') ∨
      (∃ found, Context.framesTo depth fs = .error found ∧
        Context.framesTo depth fs' = .error found) := by
    intro fs fs' h
    induction h with
    | nil =>
      rw [Context.framesTo]
      split
      · exact .inl ⟨[], [], rfl, rfl, .nil⟩
      · exact .inr ⟨0, rfl, rfl⟩
    | cons hf hfs ih =>
      rw [Context.framesTo, Context.framesTo, hf.depth]
      split
      · exact .inl ⟨_, _, rfl, rfl, .cons hf hfs⟩
      · split
        · exact .inr ⟨_, rfl, rfl⟩
        · exact ih
  rw [Context.popTo, Context.popTo]
  rcases hframes hm.context.frames with ⟨gs, gs', hgs, hgs', hrel⟩ | ⟨found, hgs, hgs'⟩
  · rw [hgs, hgs']
    refine .ok (le_refl W) rfl { hm with context := ?_ }
    exact Context.Alike.of_parts hrel hm.context.execution
  · rw [hgs, hgs']
    exact raise _ _ _ _ hm

/-- Computations that agree also agree in linked contexts. -/
theorem entering {R : Link → α → β → Prop} {c c' : Context Value} {act : Run α}
    {act' : Run β} (hc : Context.Alike (Value.Linked W) c c') (h : Agree L n W R act act') :
  Agree L n W R (Run.entering c act) (Run.entering c' act')
  := by
  intro m m' hm
  rw [Run.entering, Run.entering]
  have ha := h { m with context := c } { m' with context := c' } { hm with context := hc }
  revert ha
  generalize act { m with context := c } = r, act' { m' with context := c' } = r'
  rintro (⟨hW, hab, hm₁⟩ | ⟨hW, hc, hm₁⟩ | ⟨hW, hm₁⟩ | ⟨hW, hm₁⟩)
  · exact .ok hW hab { hm₁ with context := Context.Linked.mono hW hm.context }
  · exact .raised hW hc { hm₁ with context := Context.Linked.mono hW hm.context }
  · exact .fault hW { hm₁ with context := Context.Linked.mono hW hm.context }
  · exact .exhausted hW { hm₁ with context := Context.Linked.mono hW hm.context }

/-! ### Levels of the trampoline -/

/-- Letting linked work wait agrees: inside a level it always waits. -/
theorem enqueue {work work' : Work} (h : Work.Linked W work work') :
  Agree L n W (fun _ waits waits' => waits = true ∧ waits' = true) (Run.enqueue work)
    (Run.enqueue work')
  := by
  apply modifyGet
  intro m m' hm
  refine ⟨W, le_refl W, ?_⟩
  have hlevels := hm.levels
  cases hl : m.levels <;> cases hl' : m'.levels <;> rw [hl, hl'] at hlevels
  case nil.nil | nil.cons | cons.nil => cases hlevels
  case cons.cons => exact ⟨⟨rfl, rfl⟩, { hm with levels := hlevels.enqueue h }⟩

/-- Taking work that waits agrees, in a level inside of the outermost one. -/
theorem dequeue :
  Agree L (n + 1) W (fun W => Option.Rel (Work.Linked W)) Run.dequeue Run.dequeue
  := by
  apply modifyGet
  intro m m' hm
  refine ⟨W, le_refl W, ?_⟩
  have hlevels := hm.levels
  cases hl : m.levels <;> cases hl' : m'.levels <;> rw [hl, hl'] at hlevels <;> cases hlevels
  rename_i hq hs
  cases hq with
  | nil =>
    dsimp only
    exact ⟨.none, { hm with levels := by rw [hl, hl']; exact .outer .nil hs }⟩
  | cons hw hq => exact ⟨.some hw, { hm with levels := .outer hq hs }⟩

/-- Counting a step agrees: no steps are counted. -/
theorem step :
  Agree L n W Same Run.step Run.step
  := by
  apply get
  intro m m' hm
  rw [hm.limit, hm.limit']
  exact pure rfl _ _ hm

end Run.Agree

end Skein
