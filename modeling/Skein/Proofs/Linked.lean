import Skein.Proofs.Alike

/-!
# Linked values

Two runs of a program may make different numbers of functions, thunks and atoms, so that these have
different numbers in the two runs.  A link says which numbers stand for the same function, thunk or
atom, and two values are linked when they differ in no other way.  Linked values are the values that
are linked where every atom stands for itself.

Linked values are indistinguishable: they have the same type, truth and text, and two values are
equal exactly when the values that they are linked to are equal.
-/

namespace Skein

/-- What is known of two runs: which numbers of functions and thunks, and which ones of atoms, stand
for each other, and which executions values may settle. -/
structure Link where
  /-- A number of a function or thunk of the first run stands for one of the second run. -/
  ids : Nat → Nat → Prop
  /-- An atom of the first run stands for one of the second run. -/
  atoms : Nat → Nat → Prop
  /-- The executions that continuations of both runs settle. -/
  executions : Nat → Prop

/-- Links are ordered by what they know. -/
instance : Preorder Link where
  le W W' := (∀ i j, W.ids i j → W'.ids i j) ∧ (∀ i j, W.atoms i j → W'.atoms i j) ∧
    ∀ id, W.executions id → W'.executions id
  le_refl _ := ⟨fun _ _ h => h, fun _ _ h => h, fun _ h => h⟩
  le_trans _ _ _ h h' :=
    ⟨fun i j hij => h'.1 i j (h.1 i j hij), fun i j hij => h'.2.1 i j (h.2.1 i j hij),
      fun id hid => h'.2.2 id (h.2.2 id hid)⟩

/-- Two values are linked. -/
inductive Value.Linked (W : Link) : Value → Value → Prop where
  | scalar (s : Scalar) : Linked W (.scalar s) (.scalar s)
  | list {items items' : List Value} (h : List.Forall₂ (Linked W) items items') :
    Linked W (.list items) (.list items')
  | vector {items items' : List Value} (h : List.Forall₂ (Linked W) items items') :
    Linked W (.vector items) (.vector items')
  | closure {id id' : Nat} {name : Option Symbol} {params : List Symbol} {body : Expr}
    {env env' : List (Symbol × Value)} (hid : W.ids id id')
    (henv : ∀ x, body.Mentions x →
      Option.Rel (Linked W) (List.lookup x env) (List.lookup x env')) :
    Linked W (.closure id name params body env) (.closure id' name params body env')
  | builtin (b : Builtin) : Linked W (.native (.builtin b)) (.native (.builtin b))
  | primitive (p : Primitive) : Linked W (.native (.primitive p)) (.native (.primitive p))
  | sentinel (op : Symbol) : Linked W (.native (.sentinel op)) (.native (.sentinel op))
  | awaitContinuation {id id' : Nat} {snapshot snapshot' : Context Value} {k k' : Value}
    (hid : W.ids id id') (hs : Context.Alike (Linked W) snapshot snapshot')
    (hk : Linked W k k') :
    Linked W (.native (.awaitContinuation id snapshot k))
      (.native (.awaitContinuation id' snapshot' k'))
  | awaitFailure {id id' : Nat} {snapshot snapshot' : Context Value} {k k' : Value}
    (hid : W.ids id id') (hs : Context.Alike (Linked W) snapshot snapshot')
    (hk : Linked W k k') :
    Linked W (.native (.awaitFailure id snapshot k)) (.native (.awaitFailure id' snapshot' k'))
  | settle {id id' : Nat} {execution : Nat} {outcome : Outcome} {target target' : Value}
    (hid : W.ids id id') (he : W.executions execution) (ht : Linked W target target') :
    Linked W (.native (.settle id execution outcome target))
      (.native (.settle id' execution outcome target'))
  | inContext {id id' : Nat} {snapshot snapshot' : Context Value} {f f' : Value}
    (hid : W.ids id id') (hs : Context.Alike (Linked W) snapshot snapshot')
    (hf : Linked W f f') :
    Linked W (.native (.inContext id snapshot f)) (.native (.inContext id' snapshot' f'))
  | timer (op : TimerOp) : Linked W (.native (.timer op)) (.native (.timer op))
  | instrument {id id' : Nat} (i : Instrument) (hid : W.ids id id') :
    Linked W (.native (.instrument id i)) (.native (.instrument id' i))
  | condition {kind : ConditionKind} {message : String} {data data' : Value}
    (h : Linked W data data') :
    Linked W (.condition ⟨kind, message, data⟩) (.condition ⟨kind, message, data'⟩)
  | thunk {id id' : Nat} {resume resume' : Value} (hid : W.ids id id')
    (h : Linked W resume resume') :
    Linked W (.thunk id resume) (.thunk id' resume')
  | atom {location location' : Nat} (h : W.atoms location location') :
    Linked W (.atom location) (.atom location')
  | execution (id : Nat) : Linked W (.execution id) (.execution id)

/-- Two values are linked and related by `P`. -/
def Value.LinkedAnd (W : Link) (P : Value → Value → Prop) (v v' : Value) : Prop :=
  Linked W v v' ∧ P v v'

/-- Induction on linked values, where the parts of values come with the hypotheses about
them. -/
theorem Value.Linked.induct {W : Link} {P : Value → Value → Prop}
    (scalar : ∀ s, P (.scalar s) (.scalar s))
    (list : ∀ {items items'}, List.Forall₂ (LinkedAnd W P) items items' →
      P (.list items) (.list items'))
    (vector : ∀ {items items'}, List.Forall₂ (LinkedAnd W P) items items' →
      P (.vector items) (.vector items'))
    (closure : ∀ {id id' name params env env'} {body : Expr}, W.ids id id' →
      (∀ x, body.Mentions x →
        Option.Rel (LinkedAnd W P) (List.lookup x env) (List.lookup x env')) →
      P (.closure id name params body env) (.closure id' name params body env'))
    (builtin : ∀ b, P (.native (.builtin b)) (.native (.builtin b)))
    (primitive : ∀ p, P (.native (.primitive p)) (.native (.primitive p)))
    (sentinel : ∀ op, P (.native (.sentinel op)) (.native (.sentinel op)))
    (awaitContinuation : ∀ {id id' snapshot snapshot' k k'}, W.ids id id' →
      Context.Alike (LinkedAnd W P) snapshot snapshot' → LinkedAnd W P k k' →
      P (.native (.awaitContinuation id snapshot k))
        (.native (.awaitContinuation id' snapshot' k')))
    (awaitFailure : ∀ {id id' snapshot snapshot' k k'}, W.ids id id' →
      Context.Alike (LinkedAnd W P) snapshot snapshot' → LinkedAnd W P k k' →
      P (.native (.awaitFailure id snapshot k)) (.native (.awaitFailure id' snapshot' k')))
    (settle : ∀ {id id' execution outcome target target'}, W.ids id id' →
      W.executions execution → LinkedAnd W P target target' →
      P (.native (.settle id execution outcome target))
        (.native (.settle id' execution outcome target')))
    (inContext : ∀ {id id' snapshot snapshot' f f'}, W.ids id id' →
      Context.Alike (LinkedAnd W P) snapshot snapshot' → LinkedAnd W P f f' →
      P (.native (.inContext id snapshot f)) (.native (.inContext id' snapshot' f')))
    (timer : ∀ op, P (.native (.timer op)) (.native (.timer op)))
    (instrument : ∀ {id id'} i, W.ids id id' →
      P (.native (.instrument id i)) (.native (.instrument id' i)))
    (condition : ∀ {kind message data data'}, LinkedAnd W P data data' →
      P (.condition ⟨kind, message, data⟩) (.condition ⟨kind, message, data'⟩))
    (thunk : ∀ {id id' resume resume'}, W.ids id id' → LinkedAnd W P resume resume' →
      P (.thunk id resume) (.thunk id' resume'))
    (atom : ∀ {location location'}, W.atoms location location' →
      P (.atom location) (.atom location'))
    (execution : ∀ id, P (.execution id) (.execution id))
    {v v' : Value} (h : Linked W v v') :
  P v v'
  := by
  refine Value.Linked.rec (motive_1 := fun v v' _ => P v v')
    (motive_2 := fun vs vs' _ => List.Forall₂ (LinkedAnd W P) vs vs')
    (motive_3 := fun o o' _ => Option.Rel (LinkedAnd W P) o o')
    (motive_4 := fun c c' _ => Context.Alike (LinkedAnd W P) c c')
    (motive_5 := fun fs fs' _ => List.Forall₂ (Frame.Alike (LinkedAnd W P)) fs fs')
    (motive_6 := fun f f' _ => Frame.Alike (LinkedAnd W P) f f')
    (motive_7 := fun bs bs' _ => List.Forall₂ (Binding.Alike (LinkedAnd W P)) bs bs')
    (motive_8 := fun b b' _ => Binding.Alike (LinkedAnd W P) b b')
    scalar (fun _ ih => list ih) (fun _ ih => vector ih) (fun hid _ ih => closure hid ih)
    builtin primitive sentinel (fun hid _ hk hs ih => awaitContinuation hid hs ⟨hk, ih⟩)
    (fun hid _ hk hs ih => awaitFailure hid hs ⟨hk, ih⟩)
    (fun hid he ht ih => settle hid he ⟨ht, ih⟩)
    (fun hid _ hf hs ih => inContext hid hs ⟨hf, ih⟩) timer (fun i hid => instrument i hid)
    (fun hd ih => condition ⟨hd, ih⟩) (fun hid hr ih => thunk hid ⟨hr, ih⟩) (fun h => atom h)
    execution
    ?_ ?_ ?_ ?_ ?_ ?_ ?_ ?_ ?_ ?_ ?_ h
  · exact .nil
  · exact fun h _ ih ihs => .cons ⟨h, ih⟩ ihs
  · exact fun h ih => .some ⟨h, ih⟩
  · exact .none
  · exact fun _ ih => .mk ih
  · exact .nil
  · exact fun _ _ ih ihs => .cons ih ihs
  · exact fun _ ih => .mk ih
  · exact .nil
  · exact fun _ _ ih ihs => .cons ih ihs
  · exact fun h ih => .mk ⟨h, ih⟩

/-- Values that are linked stay linked when more is known. -/
theorem Value.Linked.mono {W W' : Link} (hW : W ≤ W') {v v' : Value} (h : Linked W v v') :
  Linked W' v v'
  := by
  have snd : ∀ v v', LinkedAnd W (Linked W') v v' → Linked W' v v' := fun _ _ h => h.2
  refine Value.Linked.induct .scalar ?list ?vector ?closure .builtin .primitive .sentinel
    ?awaitContinuation ?awaitFailure ?settle ?inContext .timer ?instrument ?condition ?thunk
    ?atom .execution h
  case list => exact fun hs => .list (hs.imp snd)
  case vector => exact fun hs => .vector (hs.imp snd)
  case closure =>
    exact fun hid henv => .closure (hW.1 _ _ hid) fun x hx => optionRel_imp snd (henv x hx)
  case awaitContinuation =>
    exact fun hid hs hk => .awaitContinuation (hW.1 _ _ hid) (hs.imp snd) hk.2
  case awaitFailure => exact fun hid hs hk => .awaitFailure (hW.1 _ _ hid) (hs.imp snd) hk.2
  case settle => exact fun hid he ht => .settle (hW.1 _ _ hid) (hW.2.2 _ he) ht.2
  case inContext => exact fun hid hs hf => .inContext (hW.1 _ _ hid) (hs.imp snd) hf.2
  case instrument => exact fun i hid => .instrument i (hW.1 _ _ hid)
  case condition => exact fun hd => .condition hd.2
  case thunk => exact fun hid hr => .thunk (hW.1 _ _ hid) hr.2
  case atom => exact fun h => .atom (hW.2.1 _ _ h)

/-! ### What can be observed of a value -/

namespace Value.Linked

variable {W : Link} {v v' w w' : Value}

/-- Linked values have the same type. -/
theorem typeName_eq (h : Linked W v v') :
  v.typeName = v'.typeName
  := by
  cases h <;> rfl

/-- Linked values count as true together. -/
theorem isTruthy_eq (h : Linked W v v') :
  v.isTruthy = v'.isTruthy
  := by
  cases h <;> rfl

/-- Linked values are empty together. -/
theorem isNil_eq (h : Linked W v v') :
  v.isNil = v'.isNil
  := by
  cases h <;> rfl

/-- Linked values are functions together. -/
theorem isCallable_eq (h : Linked W v v') :
  v.isCallable = v'.isCallable
  := by
  cases h <;> rfl

/-- Linked values are thunks together. -/
theorem isThunk_eq (h : Linked W v v') :
  v.isThunk = v'.isThunk
  := by
  cases h <;> rfl

/-- Linked values are the same symbol. -/
theorem symbol?_eq (h : Linked W v v') :
  v.symbol? = v'.symbol?
  := by
  cases h <;> rfl

/-- Linked values are the same integer. -/
theorem int?_eq (h : Linked W v v') :
  v.int? = v'.int?
  := by
  cases h <;> rfl

/-- Linked values are the same number. -/
theorem float?_eq (h : Linked W v v') :
  v.float? = v'.float?
  := by
  cases h <;> rfl

/-- Linked values are sequences together, with linked elements. -/
theorem elements?_rel (h : Linked W v v') :
  Option.Rel (List.Forall₂ (Linked W)) v.elements? v'.elements?
  := by
  cases h with
  | scalar s => cases s <;> constructor; exact .nil
  | list hs => exact .some hs
  | vector hs => exact .some hs
  | _ => exact .none

/-- Selectors accept linked values together. -/
theorem accepts_eq (h : Linked W v v') (selector : Selector) :
  selector.accepts v = selector.accepts v'
  := by
  cases selector <;> cases h <;> rfl

/-- The values of a datum are linked. -/
theorem ofDatum (W : Link) (d : Datum) :
  Linked W (Value.ofDatum d) (Value.ofDatum d)
  := by
  refine Datum.rec (motive_1 := fun d => Linked W (Value.ofDatum d) (Value.ofDatum d))
    (motive_2 := fun ds => List.Forall₂ (Linked W) (Value.ofData ds) (Value.ofData ds))
    ?_ ?_ ?_ ?_ ?_ d
  · intro s
    rw [Value.ofDatum]
    exact .scalar s
  · intro items ih
    rw [Value.ofDatum]
    exact .list ih
  · intro items ih
    rw [Value.ofDatum]
    exact .vector ih
  · rw [Value.ofData]
    exact .nil
  · intro d ds ih ihs
    rw [Value.ofData]
    exact .cons ih ihs

end Value.Linked

/-- A link pairs each number with at most one other. -/
structure Link.Injective (W : Link) : Prop where
  ids : ∀ i j i' j', W.ids i j → W.ids i' j' → (i = i' ↔ j = j')
  atoms : ∀ i j i' j', W.atoms i j → W.atoms i' j' → (i = i' ↔ j = j')

/-- Numbers that stand for each other are equal together. -/
theorem Link.Injective.numbered_eq_iff {W : Link} (hW : W.Injective) {i j i' j' : Nat}
    (h : W.ids i j) (h' : W.ids i' j') :
  Native.Identity.numbered i = .numbered i' ↔ Native.Identity.numbered j = .numbered j'
  := by
  rw [Native.Identity.numbered.injEq, Native.Identity.numbered.injEq]
  exact hW.ids i j i' j' h h'

/-- Values are equal exactly when the values are that they are linked to. -/
theorem Value.Linked.same_eq {W : Link} (hW : W.Injective) {v v' w w' : Value}
    (hv : Linked W v v') (hw : Linked W w w') :
  v.same w = v'.same w'
  := by
  have all : ∀ {vs vs'},
      List.Forall₂ (LinkedAnd W fun v v' => ∀ w w', Linked W w w' → v.same w = v'.same w') vs vs' →
      ∀ {ws ws'}, List.Forall₂ (Linked W) ws ws' → sameAll vs ws = sameAll vs' ws' := by
    intro vs vs' hvs
    induction hvs with
    | nil =>
      intro ws ws' hws
      cases hws <;> simp only [sameAll]
    | cons hv _ ih =>
      intro ws ws' hws
      cases hws with
      | nil => simp only [sameAll]
      | cons hw hws => simp only [sameAll, hv.2 _ _ hw, ih hws]
  revert hw
  suffices h : ∀ w w', Linked W w w' → v.same w = v'.same w' from fun hw => h w w' hw
  refine Value.Linked.induct (P := fun v v' => ∀ w w', Linked W w w' → v.same w = v'.same w')
    ?scalar ?list ?vector ?closure ?builtin ?primitive ?sentinel ?awaitContinuation
    ?awaitFailure ?settle ?inContext ?timer ?instrument ?condition ?thunk ?atom ?execution hv
  case list =>
    intro items items' hs w w' hw
    cases hw with
    | list hws => simp only [same]; exact all hs hws
    | vector hws => simp only [same]; exact all hs hws
    | _ => simp only [same]
  case vector =>
    intro items items' hs w w' hw
    cases hw with
    | list hws => simp only [same]; exact all hs hws
    | vector hws => simp only [same]; exact all hs hws
    | _ => simp only [same]
  case closure =>
    intro id id' name params env env' body hid henv w w' hw
    cases hw with
    | closure hid' _ => simp only [same]; exact decide_eq_decide.2 (hW.ids _ _ _ _ hid hid')
    | _ => simp only [same]
  case condition =>
    intro kind message data data' hd w w' hw
    cases hw with
    | condition hd' => simp only [same, hd.2 _ _ hd']
    | _ => simp only [same]
  case thunk =>
    intro id id' resume resume' hid hr w w' hw
    cases hw with
    | thunk hid' _ => simp only [same]; exact decide_eq_decide.2 (hW.ids _ _ _ _ hid hid')
    | _ => simp only [same]
  case scalar => intros; rename_i hw; cases hw <;> simp only [same]
  case atom =>
    intro location location' h w w' hw
    cases hw with
    | atom h' => simp only [same]; exact decide_eq_decide.2 (hW.atoms _ _ _ _ h h')
    | _ => simp only [same]
  case execution => intros; rename_i hw; cases hw <;> simp only [same]
  -- what is left are the native functions, which are told apart by their identities
  all_goals
    intros
    rename_i hw
    cases hw <;> simp only [same] <;> apply decide_eq_decide.2 <;> simp only [Native.identity]
  all_goals
    first
    | exact hW.numbered_eq_iff ‹_› ‹_›
    | simp only [reduceCtorEq]

/-! ### Alike values are linked -/

/-- The link in which every atom stands for itself. -/
def World.link (W : World) : Link := ⟨W.pairs, Eq, W.executions⟩

/-- A world knows more when its link does. -/
theorem World.link_le_iff {W W' : World} :
  W.link ≤ W'.link ↔ W ≤ W'
  := ⟨fun h => ⟨h.1, h.2.2⟩, fun h => ⟨h.1, fun _ _ h => h, h.2⟩⟩

/-- The link of a world is injective when the world is. -/
theorem World.link_injective_iff {W : World} :
  W.link.Injective ↔ W.Injective
  := by
  refine ⟨fun h => h.ids, fun h => ⟨h, ?_⟩⟩
  rintro i _ i' _ rfl rfl
  rfl

/-- Alike values are the values that are linked where every atom stands for itself. -/
theorem Value.linked_link (W : World) :
  Value.Linked W.link = Value.Alike W
  := by
  funext v v'
  apply propext
  constructor
  · intro h
    have snd : ∀ v v', LinkedAnd W.link (Alike W) v v' → Alike W v v' := fun _ _ h => h.2
    refine Value.Linked.induct .scalar ?list ?vector ?closure .builtin .primitive .sentinel
      ?awaitContinuation ?awaitFailure ?settle ?inContext .timer ?instrument ?condition ?thunk
      ?atom .execution h
    case list => exact fun hs => .list (hs.imp snd)
    case vector => exact fun hs => .vector (hs.imp snd)
    case closure => exact fun hid henv => .closure hid fun x hx => optionRel_imp snd (henv x hx)
    case awaitContinuation => exact fun hid hs hk => .awaitContinuation hid (hs.imp snd) hk.2
    case awaitFailure => exact fun hid hs hk => .awaitFailure hid (hs.imp snd) hk.2
    case settle => exact fun hid he ht => .settle hid he ht.2
    case inContext => exact fun hid hs hf => .inContext hid (hs.imp snd) hf.2
    case instrument => exact fun i hid => .instrument i hid
    case condition => exact fun hd => .condition hd.2
    case thunk => exact fun hid hr => .thunk hid hr.2
    case atom => rintro location _ rfl; exact .atom location
  · intro h
    have snd : ∀ v v', AlikeAnd W (Linked W.link) v v' → Linked W.link v v' := fun _ _ h => h.2
    refine Value.Alike.induct .scalar ?list ?vector ?closure .builtin .primitive .sentinel
      ?awaitContinuation ?awaitFailure ?settle ?inContext .timer ?instrument ?condition ?thunk
      ?atom .execution h
    case list => exact fun hs => .list (hs.imp snd)
    case vector => exact fun hs => .vector (hs.imp snd)
    case closure => exact fun hid henv => .closure hid fun x hx => optionRel_imp snd (henv x hx)
    case awaitContinuation => exact fun hid hs hk => .awaitContinuation hid (hs.imp snd) hk.2
    case awaitFailure => exact fun hid hs hk => .awaitFailure hid (hs.imp snd) hk.2
    case settle => exact fun hid he ht => .settle hid he ht.2
    case inContext => exact fun hid hs hf => .inContext hid (hs.imp snd) hf.2
    case instrument => exact fun i hid => .instrument i hid
    case condition => exact fun hd => .condition hd.2
    case thunk => exact fun hid hr => .thunk hid hr.2
    case atom => exact fun location => .atom rfl

/-- Alike values are linked. -/
theorem Value.Alike.linked {W : World} {v v' : Value} (h : Alike W v v') :
  Linked W.link v v'
  := by
  rwa [Value.linked_link]

/-- Values that are linked where every atom stands for itself are alike. -/
theorem Value.Linked.alike {W : World} {v v' : Value} (h : Linked W.link v v') :
  Alike W v v'
  := by
  rwa [← Value.linked_link]

namespace Value.Alike

variable {W : World} {v v' : Value}

/-- Alike values count as true together. -/
theorem isTruthy_eq (h : Alike W v v') :
  v.isTruthy = v'.isTruthy
  := h.linked.isTruthy_eq

/-- Selectors accept alike values together. -/
theorem accepts_eq (h : Alike W v v') (selector : Selector) :
  selector.accepts v = selector.accepts v'
  := h.linked.accepts_eq selector

/-- The values of a datum are alike. -/
theorem ofDatum (W : World) (d : Datum) :
  Alike W (Value.ofDatum d) (Value.ofDatum d)
  := (Value.Linked.ofDatum W.link d).alike

end Value.Alike

end Skein
