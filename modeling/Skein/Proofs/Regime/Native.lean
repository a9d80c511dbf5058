import Skein.Proofs.Regime.Machine

/-!
# Native functions respect regimes

A native function that works on data respects a lawful regime: it gives values of the regime
when its arguments are values of the regime.
-/

namespace Skein

open Run

variable {R : Regime} (hR : R.Lawful) {v : Value} {vs : List Value}
include hR

/-! ### Arguments -/

namespace Argument

/-- Integers as arguments. -/
theorem int_keeps (v : Value) :
  (int v).Keeps R fun _ => True
  := by
  unfold int
  split
  · exact Keeps.pure hR trivial
  · exact Keeps.raise hR _ _

/-- Sequences as arguments. -/
theorem elements_keeps (hv : R.value v) :
  (elements v).Keeps R fun items => ∀ w ∈ items, R.value w
  := by
  unfold elements
  split
  · rename_i items hitems
    exact Keeps.pure hR (hR.elements? hv hitems)
  · exact Keeps.raise hR _ _

/-- Functions as arguments. -/
theorem checkFunction_keeps (name : String) (v : Value) :
  (checkFunction name v).Keeps R fun _ => True
  := by
  unfold checkFunction
  split
  · exact Keeps.pure hR trivial
  · exact Keeps.raise hR _ _

/-- Making a thunk of an argument. -/
theorem toThunk_keeps (hv : R.value v) :
  (toThunk v).Keeps R R.value
  := by
  apply Keeps.bind hR (checkFunction_keeps hR "thunk" v)
  intro _ _
  exact Keeps.thunk hR hv

end Argument

/-! ### Arithmetic -/

namespace ArithmeticOp

/-- Numbers as arguments. -/
theorem argument_keeps (name : String) (v : Value) :
  (argument name v).Keeps R fun _ => True
  := by
  unfold argument
  split
  · exact Keeps.pure hR trivial
  · exact Keeps.raise hR _ _

/-- Integers as arguments. -/
theorem intArgument_keeps (name : String) (v : Value) :
  (intArgument name v).Keeps R fun _ => True
  := by
  unfold intArgument
  split
  · exact Keeps.pure hR trivial
  · exact Keeps.raise hR _ _

/-- Exact results. -/
theorem exact_keeps (name : String) (k : Int) :
  (exact name k).Keeps R fun _ => True
  := by
  unfold exact
  split
  · exact Keeps.pure hR trivial
  · exact Keeps.raise hR _ _

/-- Combining two numbers. -/
theorem combine_keeps (name : String) (onInt : Int → Int → Int)
    (onFloat : Float → Float → Float) (a b : Numeric) :
  (combine name onInt onFloat a b).Keeps R fun _ => True
  := by
  unfold combine
  split
  · exact exact_keeps hR _ _
  · exact Keeps.pure hR trivial

/-- Combining a number with arguments. -/
theorem accumulate_keeps (name : String) (onInt : Int → Int → Int)
    (onFloat : Float → Float → Float) (acc : Numeric) (vs : List Value) :
  (accumulate name onInt onFloat acc vs).Keeps R fun _ => True
  := by
  induction vs generalizing acc with
  | nil => exact Keeps.pure hR trivial
  | cons v vs ih =>
    apply Keeps.bind hR (argument_keeps hR name v)
    intro k _
    apply Keeps.bind hR (combine_keeps hR name onInt onFloat acc k)
    intro next _
    exact ih next

/-- Quotients. -/
theorem quotient_keeps (a b : Numeric) :
  (quotient a b).Keeps R fun _ => True
  := by
  unfold quotient
  split
  · split
    · exact Keeps.fault (hR.stops _ (by decide))
    · split
      · exact exact_keeps hR _ _
      · exact Keeps.pure hR trivial
  · exact Keeps.pure hR trivial

/-- Dividing a number by arguments. -/
theorem divideAll_keeps (acc : Numeric) (vs : List Value) :
  (divideAll acc vs).Keeps R fun _ => True
  := by
  induction vs generalizing acc with
  | nil => exact Keeps.pure hR trivial
  | cons v vs ih =>
    apply Keeps.bind hR (argument_keeps hR "/" v)
    intro k _
    split
    · exact Keeps.raise hR _ _
    · apply Keeps.bind hR (quotient_keeps hR acc k)
      intro next _
      exact ih next

/-- Remainders. -/
theorem remainder_keeps (a b : Int64) :
  (remainder a b).Keeps R fun _ => True
  := by
  unfold remainder
  split
  · exact Keeps.raise hR _ _
  · split
    · exact Keeps.raise hR _ _
    · exact exact_keeps hR _ _

/-- Functions on numbers. -/
theorem compute_keeps (op : ArithmeticOp) (vs : List Value) :
  (compute op vs).Keeps R fun _ => True
  := by
  unfold compute
  split
  · exact accumulate_keeps hR _ _ _ _ _
  · exact accumulate_keeps hR _ _ _ _ _
  · exact accumulate_keeps hR _ _ _ _ _
  · apply Keeps.bind hR (argument_keeps hR "-" _)
    intro k _
    exact accumulate_keeps hR _ _ _ _ _
  · apply Keeps.bind hR (argument_keeps hR "/" _)
    intro k _
    exact divideAll_keeps hR _ _
  · apply Keeps.bind hR (argument_keeps hR "/" _)
    intro k _
    exact divideAll_keeps hR _ _
  · apply Keeps.bind hR (intArgument_keeps hR "mod" _)
    intro a _
    apply Keeps.bind hR (intArgument_keeps hR "mod" _)
    intro b _
    exact remainder_keeps hR a b
  · exact accumulate_keeps hR _ _ _ _ _
  · apply Keeps.bind hR (argument_keeps hR "dec" _)
    intro k _
    exact combine_keeps hR _ _ _ _ _
  · exact Keeps.pure hR trivial

/-- Functions on numbers, as values. -/
theorem apply_keeps (op : ArithmeticOp) (vs : List Value) :
  (op.apply vs).Keeps R R.value
  := by
  apply Keeps.bind hR (compute_keeps hR op vs)
  intro k _
  cases k <;> exact Keeps.pure hR (hR.scalar _)

end ArithmeticOp

/-! ### Comparisons -/

namespace ComparisonOp

/-- The order of two values. -/
theorem order_keeps (name : String) (v w : Value) :
  (order name v w).Keeps R fun _ => True
  := by
  unfold order
  split
  · exact Keeps.pure hR trivial
  · exact Keeps.pure hR trivial
  · unfold orderFloats
    split
    · exact Keeps.pure hR trivial
    · exact Keeps.raise hR _ _

/-- Whether values are in order. -/
theorem ordered_keeps (name : String) (accept : Ordering → Bool) (vs : List Value) :
  (ordered name accept vs).Keeps R fun _ => True
  := by
  induction vs with
  | nil => exact Keeps.pure hR trivial
  | cons v vs ih =>
    cases vs with
    | nil => exact Keeps.pure hR trivial
    | cons w ws =>
      apply Keeps.bind hR (order_keeps hR name v w)
      intro o _
      cases o with
      | none => exact Keeps.pure hR trivial
      | some o =>
        dsimp only
        split
        · exact ih
        · exact Keeps.pure hR trivial

/-- Comparisons. -/
theorem apply_keeps (op : ComparisonOp) (vs : List Value) :
  (op.apply vs).Keeps R R.value
  := by
  have hordered : ∀ (name : String) (accept : Ordering → Bool),
      (do return .bool (← ordered name accept vs) : Run Value).Keeps R R.value := by
    intro name accept
    apply Keeps.bind hR (ordered_keeps hR name accept vs)
    intro b _
    exact Keeps.pure hR (hR.scalar _)
  cases op with
  | equal => exact Keeps.pure hR (hR.scalar _)
  | different => exact Keeps.pure hR (hR.scalar _)
  | less => exact hordered _ _
  | greater => exact hordered _ _
  | atMost => exact hordered _ _
  | atLeast => exact hordered _ _

end ComparisonOp

/-! ### Sequences -/

namespace SequenceOp

/-- The element at an index. -/
theorem element_keeps (hvs : ∀ v ∈ vs, R.value v) (index : Value) :
  (element vs index).Keeps R R.value
  := by
  unfold element
  split
  · exact Keeps.raise hR _ _
  · split
    · rename_i v hv
      split at hv
      · cases hv
      · exact Keeps.pure hR (hvs v (List.mem_of_getElem? hv))
    · exact Keeps.raise hR _ _

/-- The size of a value. -/
theorem size_keeps (hv : R.value v) :
  (size v).Keeps R fun _ => True
  := by
  unfold size
  split
  · exact Keeps.pure hR trivial
  · apply Keeps.bind hR (Argument.elements_keeps hR hv)
    intro items _
    exact Keeps.pure hR trivial

/-- Functions on sequences. -/
theorem apply_keeps (op : SequenceOp) (hvs : ∀ v ∈ vs, R.value v) :
  (op.apply vs).Keeps R R.value
  := by
  unfold apply
  split
  · exact Keeps.pure hR (hR.list_iff.2 hvs)
  · exact Keeps.pure hR (hR.vector_iff.2 hvs)
  · obtain ⟨hv, hvs⟩ := List.forall_mem_cons.1 hvs
    apply Keeps.bind hR (Argument.elements_keeps hR (List.forall_mem_cons.1 hvs).1)
    intro items hitems
    exact Keeps.pure hR (hR.list_iff.2 (List.forall_mem_cons.2 ⟨hv, hitems⟩))
  · apply Keeps.bind hR (Argument.elements_keeps hR (List.forall_mem_cons.1 hvs).1)
    intro items hitems
    exact Keeps.pure hR (hR.headD hitems)
  · apply Keeps.bind hR (Argument.elements_keeps hR (List.forall_mem_cons.1 hvs).1)
    intro items hitems
    exact Keeps.pure hR (hR.list_iff.2 fun w hw => hitems w (List.mem_of_mem_tail hw))
  · apply Keeps.bind hR (Argument.elements_keeps hR (List.forall_mem_cons.1 hvs).1)
    intro items hitems
    exact element_keeps hR hitems _
  · apply Keeps.bind hR (size_keeps hR (List.forall_mem_cons.1 hvs).1)
    intro k _
    exact Keeps.pure hR (hR.scalar _)
  · apply Keeps.bind hR (size_keeps hR (List.forall_mem_cons.1 hvs).1)
    intro k _
    exact Keeps.pure hR (hR.scalar _)
  · obtain ⟨hv, hvs⟩ := List.forall_mem_cons.1 hvs
    refine Keeps.pure hR (hR.vector_iff.2 fun w hw => ?_)
    rcases List.mem_append.1 hw with hw | hw
    · exact hR.vector_iff.1 hv w hw
    · exact hvs w hw
  · obtain ⟨hv, hvs⟩ := List.forall_mem_cons.1 hvs
    apply Keeps.bind hR (Argument.elements_keeps hR hv)
    intro items hitems
    refine Keeps.pure hR (hR.list_iff.2 fun w hw => ?_)
    rcases List.mem_append.1 hw with hw | hw
    · exact hvs w (List.mem_reverse.1 hw)
    · exact hitems w hw
  · exact Keeps.pure hR (hR.scalar _)

end SequenceOp

/-! ### Conditions and texts -/

namespace ConditionOp

/-- Making conditions of a kind. -/
theorem buildOf_keeps (name : String) (kind : ConditionKind) (hvs : ∀ v ∈ vs, R.value v) :
  (buildOf name kind vs).Keeps R fun d => R.value d.data
  := by
  unfold buildOf
  split
  · exact Keeps.pure hR (hR.headD (List.forall_mem_cons.1 hvs).2)
  · exact Keeps.raise hR _ _
  · exact Keeps.raise hR _ _

/-- Making conditions. -/
theorem build_keeps (name : String) (hvs : ∀ v ∈ vs, R.value v) :
  (build name vs).Keeps R fun d => R.value d.data
  := by
  unfold build
  split
  · exact buildOf_keeps hR name _ (List.forall_mem_cons.1 hvs).2
  · exact buildOf_keeps hR name _ hvs

/-- Conditions as arguments. -/
theorem argument_keeps (name : String) (hv : R.value v) :
  (argument name v).Keeps R fun d => R.value d.data
  := by
  unfold argument
  split
  · exact Keeps.pure hR (hR.condition_iff.1 hv)
  · exact Keeps.raise hR _ _

/-- Functions on conditions. -/
theorem apply_keeps (op : ConditionOp) (hvs : ∀ v ∈ vs, R.value v) :
  (op.apply vs).Keeps R R.value
  := by
  unfold apply
  dsimp only
  split
  · exact Keeps.throwValue hR (List.forall_mem_cons.1 hvs).1
  · apply Keeps.bind hR (build_keeps hR _ hvs)
    intro d hd
    exact Keeps.raiseCondition hR hd
  · apply Keeps.bind hR (build_keeps hR _ hvs)
    intro d hd
    exact Keeps.pure hR (hR.condition_iff.2 hd)
  · apply Keeps.bind hR (argument_keeps hR _ (List.forall_mem_cons.1 hvs).1)
    intro d _
    exact Keeps.pure hR (hR.scalar _)
  · apply Keeps.bind hR (argument_keeps hR _ (List.forall_mem_cons.1 hvs).1)
    intro d _
    exact Keeps.pure hR (hR.scalar _)
  · apply Keeps.bind hR (argument_keeps hR _ (List.forall_mem_cons.1 hvs).1)
    intro d hd
    exact Keeps.pure hR hd
  · exact Keeps.pure hR (hR.scalar _)

end ConditionOp

/-- Functions that write values. -/
theorem TextOp.apply_keeps (op : TextOp) (vs : List Value) :
  (op.apply vs).Keeps R R.value
  := by
  apply Keeps.bind hR (Keeps.mapM hR fun v _ => Keeps.plainTextOf hR v)
  intro texts _
  cases op with
  | str => exact Keeps.pure hR (hR.scalar _)
  | println =>
    apply Keeps.bind hR (Keeps.printLine hR _)
    intro _ _
    exact Keeps.pure hR (hR.scalar _)

end Skein
