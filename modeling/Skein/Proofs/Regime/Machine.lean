import Skein.Proofs.Regime

/-!
# Operations of the machine respect regimes

Each operation of the machine respects a lawful regime, when it is given values of the
regime.
-/

namespace Skein

variable {α β : Type} {R : Regime} {post : α → Prop} {v : Value} {vs : List Value}
  {c : Context Value}

/-! ### Parts of values -/

/-- The value of a datum is one of every regime. -/
theorem Regime.Closed.ofDatum (hR : R.Closed) (d : Datum) :
  R.value (.ofDatum d)
  := by
  refine Datum.rec (motive_1 := fun d => R.value (.ofDatum d))
    (motive_2 := fun ds => ∀ v ∈ Value.ofData ds, R.value v) ?scalar ?list ?vector ?nil ?cons d
  case scalar =>
    intro s
    exact hR.scalar s
  case list =>
    intro items ih
    rw [Value.ofDatum]
    exact hR.list_iff.2 ih
  case vector =>
    intro items ih
    rw [Value.ofDatum]
    exact hR.vector_iff.2 ih
  case nil =>
    rw [Value.ofData]
    exact fun _ h => absurd h List.not_mem_nil
  case cons =>
    intro d ds ih ihs
    rw [Value.ofData]
    exact List.forall_mem_cons.2 ⟨ih, ihs⟩

/-- The elements of a sequence of a regime are values of the regime. -/
theorem Regime.Closed.elements? (hR : R.Closed) (hv : R.value v) {items : List Value}
    (h : v.elements? = some items) :
  ∀ w ∈ items, R.value w
  := by
  cases v with
  | list items =>
    cases h
    exact hR.list_iff.1 hv
  | vector items =>
    cases h
    exact hR.vector_iff.1 hv
  | scalar s =>
    cases s <;> cases h
    exact fun _ h => absurd h List.not_mem_nil
  | _ => cases h

/-- The first of some values of a regime, or the empty value. -/
theorem Regime.Closed.headD (hR : R.Closed) (h : ∀ v ∈ vs, R.value v) :
  R.value (vs.head?.getD .nil)
  := by
  cases vs with
  | nil => exact hR.scalar .nil
  | cons v vs => exact h v List.mem_cons_self

/-- A name that has a value in some bindings is one of them. -/
theorem mem_of_lookup {x : Symbol} {bs : List (Symbol × Value)} (h : bs.lookup x = some v) :
  (x, v) ∈ bs
  := by
  induction bs with
  | nil => cases h
  | cons b bs ih =>
    obtain ⟨y, w⟩ := b
    rw [List.lookup_cons] at h
    split at h
    · rename_i heq
      cases h
      obtain rfl := beq_iff_eq.1 heq
      exact List.mem_cons_self
    · exact List.mem_cons_of_mem _ (ih h)

/-- The value of a name in a context of a regime is one of the regime. -/
theorem Context.Holds.lookup? {P : Value → Prop} (h : c.Holds P) {x : Symbol}
    (hx : c.lookup? x = some v) :
  P v
  := by
  obtain ⟨f, hf, hx⟩ := List.exists_of_findSome?_eq_some hx
  exact h f hf (x, v) (List.mem_reverse.1 (mem_of_lookup hx))

/-- Leaving frames leaves frames of the regime. -/
theorem Context.Holds.popTo {P : Value → Prop} (h : c.Holds P) {depth : Nat}
    {c' : Context Value} (hc : c.popTo depth = .ok c') :
  c'.Holds P
  := by
  have hframes : ∀ {fs gs : List (Frame Value)}, Context.framesTo depth fs = .ok gs →
      ∀ g ∈ gs, g ∈ fs := by
    intro fs gs hfs g hg
    induction fs with
    | nil =>
      rw [Context.framesTo] at hfs
      split at hfs <;> cases hfs
      cases hg
    | cons f fs ih =>
      rw [Context.framesTo] at hfs
      split at hfs
      · cases hfs
        exact hg
      · split at hfs
        · cases hfs
        · exact List.mem_cons_of_mem f (ih hfs)
  rw [Context.popTo] at hc
  cases hfs : Context.framesTo depth c.frames with
  | error found =>
    rw [hfs] at hc
    cases hc
  | ok gs =>
    rw [hfs] at hc
    cases hc
    exact fun g hg => h g (hframes hfs g hg)

/-- A global definition has a value of the regime, where the others have. -/
theorem setEntry_holds {N : Symbol → Prop} {P : Value → Prop} {bs : List (Symbol × Value)}
    (h : ∀ b ∈ bs, N b.1 → P b.2) (x : Symbol) (hv : P v) :
  ∀ b ∈ Run.setEntry x v bs, N b.1 → P b.2
  := by
  induction bs with
  | nil =>
    intro b hb _
    obtain rfl := List.mem_singleton.1 hb
    exact hv
  | cons b bs ih =>
    obtain ⟨hb, hbs⟩ := List.forall_mem_cons.1 h
    rw [Run.setEntry]
    split
    · exact List.forall_mem_cons.2 ⟨fun _ => hv, hbs⟩
    · exact List.forall_mem_cons.2 ⟨hb, ih hbs⟩

/-! ### States of executions -/

/-- A change of state keeps settled executions. -/
theorem Heap.continues_modify (h : Heap) (i : Nat) (next : ExecutionState) :
  h.Continues { h with executions := h.executions.modify i (·.change next) }
  := by
  intro id s hs
  rw [Heap.state?] at hs ⊢
  split at hs
  · cases hs
  · rename_i hid
    rw [if_neg hid, Array.getElem?_modify, hs]
    split
    · exact ⟨s.change next, rfl, fun hterminal => s.change_of_isTerminal hterminal next⟩
    · exact ⟨s, rfl, fun _ => rfl⟩

/-- A new execution keeps the states of the others. -/
theorem Heap.continues_push (h : Heap) :
  h.Continues { h with executions := h.executions.push .running }
  := by
  intro id s hs
  refine ⟨s, ?_, fun _ => rfl⟩
  rw [Heap.state?] at hs ⊢
  split at hs
  · cases hs
  · rename_i hid
    rw [if_neg hid]
    obtain ⟨hlt, rfl⟩ := Array.getElem?_eq_some_iff.1 hs
    exact Array.getElem?_push_lt hlt

namespace Run.Keeps

section closed

variable (hR : R.Lawful)
include hR

/-- Raising a condition that carries a value of the regime. -/
theorem raiseWith (kind : ConditionKind) (message : String) (hv : R.value v) :
  (Run.raiseWith kind message v : Run α).Keeps R post
  := raiseCondition hR hv

/-- Raising a condition that carries nothing. -/
theorem raise (kind : ConditionKind) (message : String) :
  (Run.raise kind message : Run α).Keeps R post
  := raiseWith hR kind message (hR.scalar .nil)

/-! ### Numbers -/

/-- Giving out a number. -/
theorem freshId :
  Run.freshId.Keeps R fun _ => True
  := modifyGet fun _ hm => ⟨trivial, { hm with }, hR.inert (.of_eq rfl rfl rfl rfl rfl (.of_eq rfl rfl rfl))⟩

/-- Making a native function. -/
theorem native {make : Nat → Native Value} (h : ∀ i, R.value (.native (make i))) :
  (Run.native make).Keeps R R.value
  := by
  apply bind hR (freshId hR)
  intro i _
  exact pure hR (h i)

/-- Making a thunk. -/
theorem thunk (hv : R.value v) :
  (Run.thunk v).Keeps R R.value
  := by
  apply bind hR (freshId hR)
  intro i _
  exact pure hR (hR.thunk_iff.2 hv)

/-! ### Arguments and texts -/

/-- Checking the number of arguments. -/
theorem checkArity (arity : Arity) (name : String) (vs : List Value) :
  (Run.checkArity arity name vs).Keeps R fun _ => True
  := by
  unfold Run.checkArity
  split
  · exact pure hR trivial
  · exact raise hR _ _

/-- The text of a value. -/
theorem textOf (v : Value) :
  (Run.textOf v).Keeps R fun _ => True
  := by
  intro m hm
  unfold Run.textOf
  split
  · exact .ok trivial hm (hR.refl m)
  · exact .exhausted

/-- The text of a value for a reader. -/
theorem plainTextOf (v : Value) :
  (Run.plainTextOf v).Keeps R fun _ => True
  := by
  intro m hm
  unfold Run.plainTextOf
  split
  · exact .ok trivial hm (hR.refl m)
  · exact .exhausted

/-- What an observer sees of a value. -/
theorem shown (v : Value) :
  (Run.shown v).Keeps R fun _ => True
  := by
  intro m hm
  unfold Run.shown
  split
  · exact .ok trivial hm (hR.refl m)
  · exact .exhausted

/-- What an observer sees of an end. -/
theorem answer (r : Except (Condition Value) Value) :
  (Run.answer r).Keeps R fun _ => True
  := by
  cases r with
  | ok v =>
    apply bind hR (shown hR v)
    intro s _
    exact pure hR trivial
  | error d =>
    apply bind hR (shown hR d.data)
    intro s _
    exact pure hR trivial

/-- Printing. -/
theorem printLine (line : String) :
  (Run.printLine line).Keeps R fun _ => True
  := change fun _ hm => ⟨{ hm with }, hR.inert (.of_eq rfl rfl rfl rfl rfl (.of_eq rfl rfl rfl))⟩

/-- Writing the journal. -/
theorem record (e : Entry) :
  (Run.record e).Keeps R fun _ => True
  := change fun _ hm => ⟨{ hm with }, hR.inert (.of_eq rfl rfl rfl rfl rfl (.of_eq rfl rfl rfl))⟩

/-- Throwing a value makes a condition that carries values of the regime. -/
theorem thrown (hv : R.value v) :
  (Run.thrown v).Keeps R fun d => R.value d.data
  := by
  unfold Run.thrown
  split
  · exact pure hR (hR.condition_iff.1 hv)
  · exact pure hR (hR.scalar .nil)
  · apply bind hR (textOf hR v)
    intro s _
    exact pure hR hv

/-- Throwing a value. -/
theorem throwValue (hv : R.value v) :
  (Run.throwValue v : Run α).Keeps R post
  := by
  apply bind hR (thrown hR hv)
  intro d hd
  exact raiseCondition hR hd

/-! ### Names -/

/-- Noting a lookup. -/
theorem noteLookup {x : Symbol} (hx : R.names x) :
  (Run.noteLookup x).Keeps R fun _ => True
  := change fun _ hm => ⟨{ hm with }, hR.noted hx⟩

/-- Looking a name up outside of the lexical bindings. -/
theorem lookupFree {x : Symbol} (hx : R.names x) :
  (Run.lookupFree x).Keeps R R.value
  := by
  apply bind hR (noteLookup hR hx)
  intro _ _
  apply read
  intro m hm
  cases hc : m.context.lookup? x with
  | some v => exact .ok (hm.context.lookup? hc) hm (hR.refl m)
  | none =>
    cases hg : m.globals.lookup x with
    | some v => exact .ok (hm.globals (x, v) (mem_of_lookup hg) hx) hm (hR.refl m)
    | none => exact raiseWith hR _ _ (hR.scalar _) m hm

/-- Looking a name up. -/
theorem lookup {env : Env} (henv : env.Obeys R) {x : Symbol} (hx : R.names x) :
  (Run.lookup env x).Keeps R R.value
  := by
  unfold Run.lookup
  split
  · rename_i v hv
    exact pure hR (henv (x, v) (mem_of_lookup hv))
  · exact lookupFree hR hx

/-- Defining a global. -/
theorem define (x : Symbol) (hv : R.value v) :
  (Run.define x v).Keeps R fun _ => True
  := change fun _ hm => ⟨{ hm with globals := setEntry_holds hm.globals x hv },
    hR.inert (.of_eq rfl rfl rfl rfl rfl (.of_eq rfl rfl rfl))⟩

/-! ### Atoms -/

/-- Making an atom. -/
theorem newAtom (hv : R.value v) :
  (Run.newAtom v).Keeps R R.value
  := by
  apply modifyGet
  intro m hm
  refine ⟨hR.atom _, { hm with atoms := ?_ }, hR.inert (.of_eq rfl rfl rfl rfl rfl (.of_eq rfl rfl rfl))⟩
  intro w hw
  rcases Array.mem_push.1 hw with hw | rfl
  · exact hm.atoms w hw
  · exact hv

/-- Reading an atom. -/
theorem readAtom (location : Nat) :
  (Run.readAtom location).Keeps R R.value
  := by
  apply read
  intro m hm
  refine .ok ?_ hm (hR.refl m)
  rw [Heap.contents]
  cases h : m.heap.atoms[location]? with
  | none => exact hR.scalar .nil
  | some v => exact hm.atoms v (Array.mem_of_getElem? h)

/-- Writing an atom. -/
theorem writeAtom (location : Nat) (hv : R.value v) :
  (Run.writeAtom location v).Keeps R fun _ => True
  := by
  apply change
  intro m hm
  refine ⟨{ hm with atoms := ?_ }, hR.inert (.of_eq rfl rfl rfl rfl rfl (.of_eq rfl rfl rfl))⟩
  intro w hw
  rcases Array.mem_or_eq_of_mem_setIfInBounds hw with hw | rfl
  · exact hm.atoms w hw
  · exact hv

/-! ### Executions -/

/-- Making an execution. -/
theorem newExecution :
  Run.newExecution.Keeps R fun _ => True
  := modifyGet fun m hm =>
    ⟨trivial, { hm with },
      hR.inert ⟨rfl, rfl, rfl, m.heap.continues_push, rfl, [], .of_eq rfl rfl rfl⟩⟩

/-- Reading the state of an execution. -/
theorem executionState (id : Nat) :
  (Run.executionState id).Keeps R fun _ => True
  := read fun m hm => .ok trivial hm (hR.refl m)

/-- Changing the state of an execution. -/
theorem changeState (id : Nat) (next : ExecutionState) :
  (Run.changeState id next).Keeps R fun _ => True
  := change fun m hm => ⟨{ hm with },
    hR.inert ⟨rfl, rfl, rfl, m.heap.continues_modify _ next, rfl, [], .of_eq rfl rfl rfl⟩⟩

/-- Settling an execution. -/
theorem finish (id : Nat) (outcome : Outcome) :
  (Run.finish id outcome).Keeps R fun _ => True
  := by
  apply bind hR (executionState hR id)
  intro state _
  apply bind hR (changeState hR id _)
  intro _ _
  exact pure hR trivial

/-- Changing the state of the execution of a context. -/
theorem changeStateIn (c : Context Value) (next : ExecutionState) :
  (Run.changeStateIn c next).Keeps R fun _ => True
  := by
  unfold Run.changeStateIn
  split
  · exact changeState hR _ next
  · exact pure hR trivial

/-! ### Dynamic contexts -/

/-- Reading the dynamic context. -/
theorem capture :
  Run.capture.Keeps R (Context.Holds R.value)
  := read fun m hm => .ok hm.context hm (hR.refl m)

/-- Entering a frame, where it may be entered. -/
theorem pushFrame (hpush : R.frames)
    {bindings : List (Symbol × Value)} (hb : ∀ b ∈ bindings, R.value b.2) :
  (Run.pushFrame bindings).Keeps R fun _ => True
  := modifyGet fun m hm =>
    ⟨trivial, { hm with context := List.forall_mem_cons.2 ⟨hb, hm.context⟩ },
      hR.push hpush m bindings⟩

/-- Leaving frames, where they may be left. -/
theorem popFrames (hpop : R.frames) (depth : Nat) :
  (Run.popFrames depth).Keeps R fun _ => True
  := by
  apply read
  intro m hm
  cases h : m.context.popTo depth with
  | ok c =>
    exact .ok trivial { hm with context := hm.context.popTo h } (hR.pop hpop m depth c h)
  | error found => exact raise hR _ _ m hm

/-! ### Levels of the trampoline -/

/-- Taking work that waits. -/
theorem dequeue :
  Run.dequeue.Keeps R.draining fun work => ∀ w ∈ work, w.Holds R.value
  := by
  apply modifyGet
  intro m hm
  split
  · rename_i work queue steps rest hl
    have hlevels := hm.levels
    rw [hl] at hlevels
    obtain ⟨hlevel, hrest⟩ := List.forall_mem_cons.1 hlevels
    obtain ⟨hwork, hqueue⟩ := List.forall_mem_cons.1 hlevel
    refine ⟨?_, { hm with levels := List.forall_mem_cons.2 ⟨hqueue, hrest⟩ }, .dequeued hl⟩
    rintro w ⟨⟩
    exact hwork
  · exact ⟨fun w h => absurd h (Option.not_mem_none w), hm, .kept (hR.refl m)⟩

/-- Counting a step. -/
theorem step :
  Run.step.Keeps R fun _ => True
  := by
  intro m hm
  have hnone : R.Kept (fun _ => True) m (.ok () m) := .ok trivial hm (hR.refl m)
  cases hlimit : m.limit with
  | none =>
    obtain ⟨_, _, _, _, _⟩ := m
    cases hlimit
    exact hnone
  | some limit =>
    cases hl : m.levels with
    | nil =>
      obtain ⟨_, _, _, _, _⟩ := m
      cases hlimit
      cases hl
      exact hnone
    | cons level rest =>
      let counted : Machine := { m with levels := ⟨level.queue, level.steps + 1⟩ :: rest }
      let check : Run Unit := if level.steps + 1 > limit then
        Run.raise .trampolineLimit ("trampoline exceeded step limit (" ++ toString limit ++ ")")
        else Pure.pure ()
      have hstep : Run.step m = check counted := by
        obtain ⟨_, _, _, _, _⟩ := m
        cases hlimit
        cases hl
        rfl
      have hlevels := hm.levels
      rw [hl] at hlevels
      have hcounted : counted.Obeys R :=
        { hm with levels := List.forall_mem_cons.2 (List.forall_mem_cons.1 hlevels) }
      have hcheck : check.Keeps R fun _ => True := by
        unfold check
        split
        · exact raise hR _ _
        · exact pure hR trivial
      rw [hstep]
      exact (hcheck counted hcounted).after hR (hR.counted hlimit hl)

end closed

end Run.Keeps

end Skein
