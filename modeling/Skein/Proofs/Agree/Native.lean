import Skein.Native.Apply
import Skein.Proofs.Agree.Machine

/-!
# Native functions agree

A native function that is applied to linked arguments agrees with itself, when the ways to
call functions agree.  Only functions that work on data are treated here; those of the
trampoline follow.
-/

namespace Skein

open Run

variable {L : Likeness} {n : Nat} {W : Link}

/-! ### Conditions and texts -/

namespace Run.Agree

/-- Throwing linked values raises linked conditions. -/
theorem thrown {v v' : Value} (h : Value.Linked W v v') :
  Agree L n W Condition.Linked (Run.thrown v) (Run.thrown v')
  := by
  have hother : Agree L n W Condition.Linked
      (do return ⟨.error, "uncaught value: " ++ (← Run.textOf v), v⟩)
      (do return ⟨.error, "uncaught value: " ++ (← Run.textOf v'), v'⟩) := by
    apply bind (textOf h)
    rintro W₁ text _ hW₁ rfl
    exact pure (.mk (h.mono hW₁))
  cases h with
  | condition h => exact pure (.mk h)
  | scalar s =>
    cases s with
    | string s => exact pure (.mk (.scalar .nil))
    | _ => exact hother
  | _ => exact hother

/-- Throwing linked values agrees. -/
theorem throwValue {v v' : Value} (h : Value.Linked W v v') :
  Agree L n W Value.Linked (Run.throwValue v) (Run.throwValue v')
  := by
  apply bind (thrown h)
  intro W₁ c c' hW₁ hc
  exact raiseCondition hc

/-- What observers see of linked ends agrees. -/
theorem answer {r r' : Except (Condition Value) Value} (h : Ended.Linked W r r') :
  Agree L n W Same (Run.answer r) (Run.answer r')
  := by
  cases h with
  | ok hv =>
    apply bind (shown hv)
    rintro W₁ s _ hW₁ rfl
    exact pure rfl
  | error hc =>
    obtain ⟨hd⟩ := hc
    apply bind (shown hd)
    rintro W₁ s _ hW₁ rfl
    exact pure rfl

end Run.Agree

/-- The first of linked arguments, or the empty value. -/
theorem Value.Linked.headD {vs vs' : List Value} (h : List.Forall₂ (Value.Linked W) vs vs') :
  Value.Linked W (vs.head?.getD .nil) (vs'.head?.getD .nil)
  := by
  cases h with
  | nil => exact .scalar .nil
  | cons hv _ => exact hv

/-! ### Arguments -/

namespace Argument

/-- Integer arguments agree. -/
theorem int_agree {v v' : Value} (h : Value.Linked W v v') :
  Agree L n W Same (int v) (int v')
  := by
  rw [int, int, h.int?_eq, h.typeName_eq]
  split
  · exact Agree.pure rfl
  · exact Agree.raise _ _

/-- Sequences as arguments agree. -/
theorem elements_agree {v v' : Value} (h : Value.Linked W v v') :
  Agree L n W (fun W => List.Forall₂ (Value.Linked W)) (elements v) (elements v')
  := by
  rw [elements, elements, h.typeName_eq]
  have hrel := h.elements?_rel
  revert hrel
  generalize v.elements? = o, v'.elements? = o'
  rintro (hs | _)
  · exact Agree.pure hs
  · exact Agree.raise _ _

/-- Functions as arguments agree. -/
theorem checkFunction_agree (name : String) {v v' : Value} (h : Value.Linked W v v') :
  Agree L n W Same (checkFunction name v) (checkFunction name v')
  := by
  rw [checkFunction, checkFunction, h.isCallable_eq, h.typeName_eq]
  split
  · exact Agree.pure rfl
  · exact Agree.raise _ _

/-- Making thunks agrees. -/
theorem toThunk_agree {v v' : Value} (h : Value.Linked W v v') :
  Agree L n W Value.Linked (toThunk v) (toThunk v')
  := by
  apply Agree.bind (checkFunction_agree "thunk" h)
  intro W₁ _ _ hW₁ _
  exact Agree.thunk (h.mono hW₁)

end Argument

/-! ### Arithmetic -/

namespace ArithmeticOp

/-- Linked values are the same number. -/
theorem ofValue?_eq {v v' : Value} (h : Value.Linked W v v') :
  Numeric.ofValue? v = Numeric.ofValue? v'
  := by
  cases h <;> rfl

/-- Numbers as arguments agree. -/
theorem argument_agree (name : String) {v v' : Value} (h : Value.Linked W v v') :
  Agree L n W Same (argument name v) (argument name v')
  := by
  rw [argument, argument, ofValue?_eq h, h.typeName_eq]
  split
  · exact Agree.pure rfl
  · exact Agree.raise _ _

/-- Integers as arguments agree. -/
theorem intArgument_agree (name : String) {v v' : Value} (h : Value.Linked W v v') :
  Agree L n W Same (intArgument name v) (intArgument name v')
  := by
  rw [intArgument, intArgument, h.int?_eq, h.typeName_eq]
  split
  · exact Agree.pure rfl
  · exact Agree.raise _ _

/-- Exact results agree. -/
theorem exact_agree (name : String) (k : Int) :
  Agree L n W Same (exact name k) (exact name k)
  := by
  unfold exact
  split
  · exact Agree.pure rfl
  · exact Agree.raise _ _

/-- Combining numbers agrees. -/
theorem combine_agree (name : String) (onInt : Int → Int → Int)
    (onFloat : Float → Float → Float) (a b : Numeric) :
  Agree L n W Same (combine name onInt onFloat a b) (combine name onInt onFloat a b)
  := by
  unfold combine
  split
  · exact exact_agree _ _
  · exact Agree.pure rfl

/-- Combining a number with linked arguments agrees. -/
theorem accumulate_agree (name : String) (onInt : Int → Int → Int)
    (onFloat : Float → Float → Float) (acc : Numeric) {vs vs' : List Value}
    (h : List.Forall₂ (Value.Linked W) vs vs') :
  Agree L n W Same (accumulate name onInt onFloat acc vs)
    (accumulate name onInt onFloat acc vs')
  := by
  induction vs generalizing W acc vs' with
  | nil =>
    cases h
    exact Agree.pure rfl
  | cons v vs ih =>
    cases h with | cons hv hvs
    apply Agree.bind (argument_agree name hv)
    rintro W₁ k _ hW₁ rfl
    apply Agree.bind (combine_agree name onInt onFloat acc k)
    rintro W₂ next _ hW₂ rfl
    exact ih next (Value.Linked.mono_all (le_trans hW₁ hW₂) hvs)

/-- Quotients agree. -/
theorem quotient_agree (a b : Numeric) :
  Agree L n W Same (quotient a b) (quotient a b)
  := by
  unfold quotient
  split
  · split
    · exact Agree.fault _
    · split
      · exact exact_agree _ _
      · exact Agree.pure rfl
  · exact Agree.pure rfl

/-- Dividing a number by linked arguments agrees. -/
theorem divideAll_agree (acc : Numeric) {vs vs' : List Value}
    (h : List.Forall₂ (Value.Linked W) vs vs') :
  Agree L n W Same (divideAll acc vs) (divideAll acc vs')
  := by
  induction vs generalizing W acc vs' with
  | nil =>
    cases h
    exact Agree.pure rfl
  | cons v vs ih =>
    cases h with | cons hv hvs
    apply Agree.bind (argument_agree "/" hv)
    rintro W₁ k _ hW₁ rfl
    split
    · exact Agree.raise _ _
    · apply Agree.bind (quotient_agree acc k)
      rintro W₂ next _ hW₂ rfl
      exact ih next (Value.Linked.mono_all (le_trans hW₁ hW₂) hvs)

/-- Remainders agree. -/
theorem remainder_agree (a b : Int64) :
  Agree L n W Same (remainder a b) (remainder a b)
  := by
  unfold remainder
  split
  · exact Agree.raise _ _
  · split
    · exact Agree.raise _ _
    · exact exact_agree _ _

/-- Functions on numbers agree on linked arguments. -/
theorem compute_agree (op : ArithmeticOp) {vs vs' : List Value}
    (h : List.Forall₂ (Value.Linked W) vs vs') :
  Agree L n W Same (compute op vs) (compute op vs')
  := by
  cases op with
  | add => exact accumulate_agree _ _ _ _ h
  | multiply => exact accumulate_agree _ _ _ _ h
  | subtract =>
    rcases h with _ | ⟨hv, _ | ⟨hw, hs⟩⟩
    · exact Agree.pure rfl
    · exact accumulate_agree _ _ _ _ (.cons hv .nil)
    · apply Agree.bind (argument_agree "-" hv)
      rintro W₁ k _ hW₁ rfl
      exact accumulate_agree _ _ _ _ (Value.Linked.mono_all hW₁ (.cons hw hs))
  | divide =>
    rcases h with _ | ⟨hv, _ | ⟨hw, hs⟩⟩
    · exact Agree.pure rfl
    · apply Agree.bind (argument_agree "/" hv)
      rintro W₁ k _ hW₁ rfl
      exact divideAll_agree _ (.cons (hv.mono hW₁) .nil)
    · apply Agree.bind (argument_agree "/" hv)
      rintro W₁ k _ hW₁ rfl
      exact divideAll_agree _ (Value.Linked.mono_all hW₁ (.cons hw hs))
  | modulo =>
    rcases h with _ | ⟨hv, _ | ⟨hw, _ | ⟨_, _⟩⟩⟩
    · exact Agree.pure rfl
    · exact Agree.pure rfl
    · apply Agree.bind (intArgument_agree "mod" hv)
      rintro W₁ a _ hW₁ rfl
      apply Agree.bind (intArgument_agree "mod" (hw.mono hW₁))
      rintro W₂ b _ hW₂ rfl
      exact remainder_agree a b
    · exact Agree.pure rfl
  | increment =>
    rcases h with _ | ⟨hv, _ | ⟨_, _⟩⟩
    · exact Agree.pure rfl
    · exact accumulate_agree _ _ _ _ (.cons hv .nil)
    · exact Agree.pure rfl
  | decrement =>
    rcases h with _ | ⟨hv, _ | ⟨_, _⟩⟩
    · exact Agree.pure rfl
    · apply Agree.bind (argument_agree "dec" hv)
      rintro W₁ k _ hW₁ rfl
      exact combine_agree _ _ _ _ _
    · exact Agree.pure rfl

/-- Functions on numbers agree on linked arguments, as values. -/
theorem apply_agree (op : ArithmeticOp) {vs vs' : List Value}
    (h : List.Forall₂ (Value.Linked W) vs vs') :
  Agree L n W Value.Linked (op.apply vs) (op.apply vs')
  := by
  apply Agree.bind (compute_agree op h)
  rintro W₁ k _ hW₁ rfl
  cases k <;> exact Agree.pure (.scalar _)

end ArithmeticOp

/-! ### Comparisons -/

namespace ComparisonOp

/-- The order of linked values as floats agrees. -/
theorem orderFloats_agree (name : String) {v v' w w' : Value} (hv : Value.Linked W v v')
    (hw : Value.Linked W w w') :
  Agree L n W Same (orderFloats name v w) (orderFloats name v' w')
  := by
  unfold orderFloats
  rw [hv.float?_eq, hw.float?_eq, hv.typeName_eq, hw.typeName_eq]
  split
  · exact Agree.pure rfl
  · exact Agree.raise _ _

/-- The order of linked values agrees. -/
theorem order_agree (name : String) {v v' w w' : Value} (hv : Value.Linked W v v')
    (hw : Value.Linked W w w') :
  Agree L n W Same (order name v w) (order name v' w')
  := by
  have hother : Agree L n W Same (orderFloats name v w) (orderFloats name v' w') :=
    orderFloats_agree name hv hw
  cases hv with
  | scalar s =>
    cases hw with
    | scalar t =>
      cases s <;> cases t <;> first
        | exact hother
        | exact Agree.pure rfl
    | _ => cases s <;> exact hother
  | _ => exact hother

/-- Whether linked values are in order agrees. -/
theorem ordered_agree (name : String) (accept : Ordering → Bool) {vs vs' : List Value}
    (h : List.Forall₂ (Value.Linked W) vs vs') :
  Agree L n W Same (ordered name accept vs) (ordered name accept vs')
  := by
  induction vs generalizing W vs' with
  | nil =>
    cases h
    exact Agree.pure rfl
  | cons v vs ih =>
    rcases h with _ | ⟨hv, hvs⟩
    rcases hvs with _ | ⟨hw, hws⟩
    · exact Agree.pure rfl
    · apply Agree.bind (order_agree name hv hw)
      rintro W₁ o _ hW₁ rfl
      cases o with
      | none => exact Agree.pure rfl
      | some o =>
        dsimp only
        split
        · exact ih (Value.Linked.mono_all hW₁ (.cons hw hws))
        · exact Agree.pure rfl

/-- Linked values are all equal together. -/
theorem allSame_eq (hW : W.Injective) {vs vs' : List Value}
    (h : List.Forall₂ (Value.Linked W) vs vs') :
  allSame vs = allSame vs'
  := by
  induction h with
  | nil => rfl
  | cons hv hvs ih =>
    cases hvs with
    | nil => rfl
    | cons hw _ => rw [allSame, allSame, hv.same_eq hW hw, ih]

/-- Comparisons agree on linked arguments. -/
theorem apply_agree (op : ComparisonOp) {vs vs' : List Value}
    (h : List.Forall₂ (Value.Linked W) vs vs') :
  Agree L n W Value.Linked (op.apply vs) (op.apply vs')
  := by
  have hordered : ∀ (name : String) (accept : Ordering → Bool), Agree L n W Value.Linked
      (do return .bool (← ordered name accept vs))
      (do return .bool (← ordered name accept vs')) := by
    intro name accept
    apply Agree.bind (ordered_agree name accept h)
    rintro W₁ b _ hW₁ rfl
    exact Agree.pure (.scalar _)
  cases op with
  | equal =>
    intro m m' hm
    rw [apply, apply, allSame_eq hm.injective h]
    exact Agree.pure (.scalar _) m m' hm
  | different =>
    intro m m' hm
    rw [apply, apply, allSame_eq hm.injective h]
    exact Agree.pure (.scalar _) m m' hm
  | less => exact hordered _ _
  | greater => exact hordered _ _
  | atMost => exact hordered _ _
  | atLeast => exact hordered _ _

end ComparisonOp

/-! ### Sequences -/

namespace SequenceOp

/-- Elements of linked sequences agree. -/
theorem element_agree {vs vs' : List Value} (h : List.Forall₂ (Value.Linked W) vs vs')
    {index index' : Value} (hi : Value.Linked W index index') :
  Agree L n W Value.Linked (element vs index) (element vs' index')
  := by
  rw [element, element, hi.int?_eq, hi.typeName_eq, h.length_eq]
  split
  · exact Agree.raise _ _
  · rename_i k _
    have hrel : Option.Rel (Value.Linked W) (if k < 0 then none else vs[k.toInt.toNat]?)
        (if k < 0 then none else vs'[k.toInt.toNat]?) := by
      split
      · exact .none
      · exact forall₂_getElem? h _
    revert hrel
    generalize (if k < 0 then none else vs[k.toInt.toNat]?) = o
    generalize (if k < 0 then none else vs'[k.toInt.toNat]?) = o'
    rintro (hv | _)
    · exact Agree.pure hv
    · exact Agree.raise _ _

/-- The sizes of linked values agree. -/
theorem size_agree {v v' : Value} (h : Value.Linked W v v') :
  Agree L n W Same (size v) (size v')
  := by
  have hother : Agree L n W Same (do return (← Argument.elements v).length)
      (do return (← Argument.elements v').length) := by
    apply Agree.bind (Argument.elements_agree h)
    intro W₁ items items' hW₁ hs
    exact Agree.pure hs.length_eq
  cases h with
  | scalar s =>
    cases s with
    | string s => exact Agree.pure rfl
    | _ => exact hother
  | _ => exact hother

/-- Functions on sequences agree on linked arguments. -/
theorem apply_agree (op : SequenceOp) {vs vs' : List Value}
    (h : List.Forall₂ (Value.Linked W) vs vs') :
  Agree L n W Value.Linked (op.apply vs) (op.apply vs')
  := by
  cases op with
  | list => exact Agree.pure (.list h)
  | vector => exact Agree.pure (.vector h)
  | cons =>
    rcases h with _ | ⟨hv, _ | ⟨hs, _ | ⟨_, _⟩⟩⟩
    · exact Agree.pure (.scalar _)
    · exact Agree.pure (.scalar _)
    · apply Agree.bind (Argument.elements_agree hs)
      intro W₁ items items' hW₁ hitems
      exact Agree.pure (.list (.cons (hv.mono hW₁) hitems))
    · exact Agree.pure (.scalar _)
  | first =>
    rcases h with _ | ⟨hs, _ | ⟨_, _⟩⟩
    · exact Agree.pure (.scalar _)
    · apply Agree.bind (Argument.elements_agree hs)
      intro W₁ items items' hW₁ hitems
      exact Agree.pure (Value.Linked.headD hitems)
    · exact Agree.pure (.scalar _)
  | rest =>
    rcases h with _ | ⟨hs, _ | ⟨_, _⟩⟩
    · exact Agree.pure (.scalar _)
    · apply Agree.bind (Argument.elements_agree hs)
      intro W₁ items items' hW₁ hitems
      cases hitems with
      | nil => exact Agree.pure (.list .nil)
      | cons _ htail => exact Agree.pure (.list htail)
    · exact Agree.pure (.scalar _)
  | nth =>
    rcases h with _ | ⟨hs, _ | ⟨hi, _ | ⟨_, _⟩⟩⟩
    · exact Agree.pure (.scalar _)
    · exact Agree.pure (.scalar _)
    · apply Agree.bind (Argument.elements_agree hs)
      intro W₁ items items' hW₁ hitems
      exact element_agree hitems (hi.mono hW₁)
    · exact Agree.pure (.scalar _)
  | count =>
    rcases h with _ | ⟨hs, _ | ⟨_, _⟩⟩
    · exact Agree.pure (.scalar _)
    · apply Agree.bind (size_agree hs)
      rintro W₁ k _ hW₁ rfl
      exact Agree.pure (.scalar _)
    · exact Agree.pure (.scalar _)
  | isEmpty =>
    rcases h with _ | ⟨hs, _ | ⟨_, _⟩⟩
    · exact Agree.pure (.scalar _)
    · apply Agree.bind (size_agree hs)
      rintro W₁ k _ hW₁ rfl
      exact Agree.pure (.scalar _)
    · exact Agree.pure (.scalar _)
  | conj =>
    rcases h with _ | ⟨hs, hvs⟩
    · exact Agree.pure (.scalar _)
    · rename_i s s' vs vs'
      have hother : Agree L n W Value.Linked
          (do return .list (vs.reverse ++ (← Argument.elements s)))
          (do return .list (vs'.reverse ++ (← Argument.elements s'))) := by
        apply Agree.bind (Argument.elements_agree hs)
        intro W₁ items items' hW₁ hitems
        have hreverse := List.rel_reverse (Value.Linked.mono_all hW₁ hvs)
        exact Agree.pure (.list (List.rel_append hreverse hitems))
      cases hs with
      | vector hitems => exact Agree.pure (.vector (List.rel_append hitems hvs))
      | _ => exact hother

end SequenceOp

/-! ### Conditions, texts and tests -/

namespace ConditionOp

/-- Making conditions of a kind agrees. -/
theorem buildOf_agree (name : String) (kind : ConditionKind) {vs vs' : List Value}
    (h : List.Forall₂ (Value.Linked W) vs vs') :
  Agree L n W Condition.Linked (buildOf name kind vs) (buildOf name kind vs')
  := by
  rcases h with _ | ⟨hv, hvs⟩
  · exact Agree.raise _ _
  · cases hv with
    | scalar s =>
      cases s with
      | string s => exact Agree.pure (.mk (Value.Linked.headD hvs))
      | _ => exact Agree.raise _ _
    | _ => exact Agree.raise _ _

/-- Making conditions of linked arguments agrees. -/
theorem build_agree (name : String) {vs vs' : List Value}
    (h : List.Forall₂ (Value.Linked W) vs vs') :
  Agree L n W Condition.Linked (build name vs) (build name vs')
  := by
  rcases h with _ | ⟨hv, hvs⟩
  · exact buildOf_agree name .error .nil
  · cases hv with
    | scalar s =>
      cases s with
      | keyword word => exact buildOf_agree name (.ofName word) hvs
      | string s => exact buildOf_agree name .error (.cons (.scalar (.string s)) hvs)
      | _ => exact Agree.raise _ _
    | _ => exact Agree.raise _ _

/-- Conditions as arguments agree. -/
theorem argument_agree (name : String) {v v' : Value} (h : Value.Linked W v v') :
  Agree L n W Condition.Linked (argument name v) (argument name v')
  := by
  cases h with
  | condition hd => exact Agree.pure (.mk hd)
  | _ => exact Agree.raise _ _

/-- Functions on conditions agree on linked arguments. -/
theorem apply_agree (op : ConditionOp) {vs vs' : List Value}
    (h : List.Forall₂ (Value.Linked W) vs vs') :
  Agree L n W Value.Linked (op.apply vs) (op.apply vs')
  := by
  cases op with
  | throw =>
    rcases h with _ | ⟨hv, _ | ⟨_, _⟩⟩
    · exact Agree.pure (.scalar _)
    · exact Agree.throwValue hv
    · exact Agree.pure (.scalar _)
  | error =>
    apply Agree.bind (build_agree _ h)
    intro W₁ c c' hW₁ hc
    exact Agree.raiseCondition hc
  | info =>
    apply Agree.bind (build_agree _ h)
    intro W₁ c c' hW₁ hc
    obtain ⟨hd⟩ := hc
    exact Agree.pure (.condition hd)
  | message =>
    rcases h with _ | ⟨hv, _ | ⟨_, _⟩⟩
    · exact Agree.pure (.scalar _)
    · apply Agree.bind (argument_agree _ hv)
      intro W₁ c c' hW₁ hc
      obtain ⟨hd⟩ := hc
      exact Agree.pure (.scalar _)
    · exact Agree.pure (.scalar _)
  | kind =>
    rcases h with _ | ⟨hv, _ | ⟨_, _⟩⟩
    · exact Agree.pure (.scalar _)
    · apply Agree.bind (argument_agree _ hv)
      intro W₁ c c' hW₁ hc
      obtain ⟨hd⟩ := hc
      exact Agree.pure (.scalar _)
    · exact Agree.pure (.scalar _)
  | data =>
    rcases h with _ | ⟨hv, _ | ⟨_, _⟩⟩
    · exact Agree.pure (.scalar _)
    · apply Agree.bind (argument_agree _ hv)
      intro W₁ c c' hW₁ hc
      obtain ⟨hd⟩ := hc
      exact Agree.pure hd
    · exact Agree.pure (.scalar _)

end ConditionOp

/-- Functions that write values agree on linked arguments. -/
theorem TextOp.apply_agree (op : TextOp) {vs vs' : List Value}
    (h : List.Forall₂ (Value.Linked W) vs vs') :
  Agree L n W Value.Linked (op.apply vs) (op.apply vs')
  := by
  apply Agree.bind (Agree.mapM (R := Same) (fun _ h => h)
    (h.imp fun v v' hv W' hW' => Agree.plainTextOf (hv.mono hW')))
  intro W₁ texts texts' hW₁ htexts
  have htexts : texts = texts' := List.forall₂_eq_eq_eq ▸ htexts
  subst htexts
  cases op with
  | str => exact Agree.pure (.scalar _)
  | println =>
    apply Agree.bind (Agree.printLine _)
    intro W₂ _ _ hW₂ _
    exact Agree.pure (.scalar _)

/-- Tests hold of linked values together. -/
theorem TestOp.holds_eq (op : TestOp) {v v' : Value} (h : Value.Linked W v v') :
  op.holds v = op.holds v'
  := by
  cases op with
  | not => rw [TestOp.holds, TestOp.holds, h.isTruthy_eq]
  | isNil => exact h.isNil_eq
  | isNumber => rw [TestOp.holds, TestOp.holds, h.float?_eq]
  | isString => cases h <;> rfl
  | isFunction => exact h.isCallable_eq
  | isThunk => exact h.isThunk_eq
  | isCondition => cases h <;> rfl

/-- Tests agree on linked arguments. -/
theorem TestOp.apply_agree (op : TestOp) {vs vs' : List Value}
    (h : List.Forall₂ (Value.Linked W) vs vs') :
  Value.Linked W (op.apply vs) (op.apply vs')
  := by
  have hany : vs.any op.holds = vs'.any op.holds := by
    induction h with
    | nil => rfl
    | cons hv _ ih => rw [List.any_cons, List.any_cons, op.holds_eq hv, ih]
  rw [TestOp.apply, TestOp.apply, hany]
  exact .scalar _

end Skein
