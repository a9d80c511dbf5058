import Skein.Proofs.Metered.Recount

/-!
# Native functions do not ask for counts of steps

A native function that works on data does not depend on the limit of steps and on the steps that
levels have taken.
-/

namespace Skein

open Run

/-! ### Arguments -/

namespace Argument

/-- Integers as arguments. -/
theorem int_blind (v : Value) :
  (int v).Blind
  := by
  unfold int
  split
  · exact .pure _
  · exact .raise _ _

/-- Sequences as arguments. -/
theorem elements_blind (v : Value) :
  (elements v).Blind
  := by
  unfold elements
  split
  · exact .pure _
  · exact .raise _ _

/-- Functions as arguments. -/
theorem checkFunction_blind (name : String) (v : Value) :
  (checkFunction name v).Blind
  := by
  unfold checkFunction
  split
  · exact .pure _
  · exact .raise _ _

/-- Making a thunk of an argument. -/
theorem toThunk_blind (v : Value) :
  (toThunk v).Blind
  := (checkFunction_blind "thunk" v).bind fun _ => .thunk v

end Argument

/-! ### Arithmetic -/

namespace ArithmeticOp

/-- Numbers as arguments. -/
theorem argument_blind (name : String) (v : Value) :
  (argument name v).Blind
  := by
  unfold argument
  split
  · exact .pure _
  · exact .raise _ _

/-- Integers as arguments. -/
theorem intArgument_blind (name : String) (v : Value) :
  (intArgument name v).Blind
  := by
  unfold intArgument
  split
  · exact .pure _
  · exact .raise _ _

/-- Exact results. -/
theorem exact_blind (name : String) (n : Int) :
  (exact name n).Blind
  := by
  unfold exact
  split
  · exact .pure _
  · exact .raise _ _

/-- Combining two numbers. -/
theorem combine_blind (name : String) (onInt : Int → Int → Int) (onFloat : Float → Float → Float)
    (a b : Numeric) :
  (combine name onInt onFloat a b).Blind
  := by
  unfold combine
  split
  · exact exact_blind _ _
  · exact .pure _

/-- Combining a number with arguments. -/
theorem accumulate_blind (name : String) (onInt : Int → Int → Int)
    (onFloat : Float → Float → Float) (acc : Numeric) (vs : List Value) :
  (accumulate name onInt onFloat acc vs).Blind
  := by
  induction vs generalizing acc with
  | nil => exact .pure _
  | cons v vs ih =>
    exact (argument_blind name v).bind fun n =>
      (combine_blind name onInt onFloat acc n).bind fun next => ih next

/-- Quotients. -/
theorem quotient_blind (a b : Numeric) :
  (quotient a b).Blind
  := by
  unfold quotient
  split
  · split
    · exact .fault _
    · split
      · exact exact_blind _ _
      · exact .pure _
  · exact .pure _

/-- Dividing a number by arguments. -/
theorem divideAll_blind (acc : Numeric) (vs : List Value) :
  (divideAll acc vs).Blind
  := by
  induction vs generalizing acc with
  | nil => exact .pure _
  | cons v vs ih =>
    apply (argument_blind "/" v).bind
    intro n
    split
    · exact .raise _ _
    · exact (quotient_blind acc n).bind fun next => ih next

/-- Remainders. -/
theorem remainder_blind (a b : Int64) :
  (remainder a b).Blind
  := by
  unfold remainder
  split
  · exact .raise _ _
  · split
    · exact .raise _ _
    · exact exact_blind _ _

/-- Functions on numbers. -/
theorem apply_blind (op : ArithmeticOp) (vs : List Value) :
  (op.apply vs).Blind
  := by
  refine Blind.bind ?_ fun _ => .pure _
  unfold compute
  split
  · exact accumulate_blind _ _ _ _ _
  · exact accumulate_blind _ _ _ _ _
  · exact accumulate_blind _ _ _ _ _
  · exact (argument_blind "-" _).bind fun _ => accumulate_blind _ _ _ _ _
  · exact (argument_blind "/" _).bind fun _ => divideAll_blind _ _
  · exact (argument_blind "/" _).bind fun _ => divideAll_blind _ _
  · exact (intArgument_blind "mod" _).bind fun a =>
      (intArgument_blind "mod" _).bind fun b => remainder_blind a b
  · exact accumulate_blind _ _ _ _ _
  · exact (argument_blind "dec" _).bind fun _ => combine_blind _ _ _ _ _
  · exact .pure _

end ArithmeticOp

/-! ### Comparisons -/

namespace ComparisonOp

/-- The order of two values. -/
theorem order_blind (name : String) (v w : Value) :
  (order name v w).Blind
  := by
  unfold order
  split
  · exact .pure _
  · exact .pure _
  · unfold orderFloats
    split
    · exact .pure _
    · exact .raise _ _

/-- Whether values are in order. -/
theorem ordered_blind (name : String) (accept : Ordering → Bool) (vs : List Value) :
  (ordered name accept vs).Blind
  := by
  induction vs with
  | nil => exact .pure _
  | cons v vs ih =>
    cases vs with
    | nil => exact .pure _
    | cons w ws =>
      apply (order_blind name v w).bind
      rintro (_ | o)
      · exact .pure _
      · dsimp only
        split
        · exact ih
        · exact .pure _

/-- Comparisons. -/
theorem apply_blind (op : ComparisonOp) (vs : List Value) :
  (op.apply vs).Blind
  := by
  cases op with
  | equal => exact .pure _
  | different => exact .pure _
  | less => exact (ordered_blind _ _ vs).bind fun _ => .pure _
  | greater => exact (ordered_blind _ _ vs).bind fun _ => .pure _
  | atMost => exact (ordered_blind _ _ vs).bind fun _ => .pure _
  | atLeast => exact (ordered_blind _ _ vs).bind fun _ => .pure _

end ComparisonOp

/-! ### Sequences -/

namespace SequenceOp

/-- The element at an index. -/
theorem element_blind (items : List Value) (index : Value) :
  (element items index).Blind
  := by
  unfold element
  split
  · exact .raise _ _
  · split
    · exact .pure _
    · exact .raise _ _

/-- The size of a value. -/
theorem size_blind (v : Value) :
  (size v).Blind
  := by
  unfold size
  split
  · exact .pure _
  · exact (Argument.elements_blind _).bind fun _ => .pure _

/-- Functions on sequences. -/
theorem apply_blind (op : SequenceOp) (vs : List Value) :
  (op.apply vs).Blind
  := by
  unfold apply
  split
  · exact .pure _
  · exact .pure _
  · exact (Argument.elements_blind _).bind fun _ => .pure _
  · exact (Argument.elements_blind _).bind fun _ => .pure _
  · exact (Argument.elements_blind _).bind fun _ => .pure _
  · exact (Argument.elements_blind _).bind fun items => element_blind items _
  · exact (size_blind _).bind fun _ => .pure _
  · exact (size_blind _).bind fun _ => .pure _
  · exact .pure _
  · exact (Argument.elements_blind _).bind fun _ => .pure _
  · exact .pure _

end SequenceOp

/-! ### Conditions and texts -/

namespace ConditionOp

/-- Making conditions of a kind. -/
theorem buildOf_blind (name : String) (kind : ConditionKind) (vs : List Value) :
  (buildOf name kind vs).Blind
  := by
  unfold buildOf
  split
  · exact .pure _
  · exact .raise _ _
  · exact .raise _ _

/-- Making conditions. -/
theorem build_blind (name : String) (vs : List Value) :
  (build name vs).Blind
  := by
  unfold build
  split
  · exact buildOf_blind _ _ _
  · exact buildOf_blind _ _ _

/-- Conditions as arguments. -/
theorem argument_blind (name : String) (v : Value) :
  (argument name v).Blind
  := by
  unfold argument
  split
  · exact .pure _
  · exact .raise _ _

/-- Functions on conditions. -/
theorem apply_blind (op : ConditionOp) (vs : List Value) :
  (op.apply vs).Blind
  := by
  unfold apply
  dsimp only
  split
  · exact .throwValue _
  · exact (build_blind _ vs).bind fun c => .raiseCondition c
  · exact (build_blind _ vs).bind fun _ => .pure _
  · exact (argument_blind _ _).bind fun _ => .pure _
  · exact (argument_blind _ _).bind fun _ => .pure _
  · exact (argument_blind _ _).bind fun _ => .pure _
  · exact .pure _

end ConditionOp

/-- Functions that write values. -/
theorem TextOp.apply_blind (op : TextOp) (vs : List Value) :
  (op.apply vs).Blind
  := by
  apply (Blind.mapM Blind.plainTextOf vs).bind
  intro texts
  cases op with
  | str => exact .pure _
  | println => exact (Blind.printLine _).bind fun _ => .pure _

/-! ### Functions that compiled trees hold -/

namespace Builtin

/-- Names and values in turn as bindings. -/
theorem bindings_blind (vs : List Value) :
  (bindings vs).Blind
  := by
  induction vs using bindings.induct with
  | case1 x v rest name hname ih =>
    rw [bindings, hname]
    exact ih.bind fun _ => .pure _
  | case2 x v rest hnone =>
    rw [bindings, hnone]
    exact .raise _ _
  | case3 vs hne =>
    rw [bindings]
    · exact .pure _
    · exact hne

/-- Depths as values. -/
theorem depthValue_blind (depth : Nat) :
  (depthValue depth).Blind
  := by
  unfold depthValue
  split
  · exact .pure _
  · exact .fault _

/-- Functions that compiled trees hold. -/
theorem apply_blind (b : Builtin) (vs : List Value) :
  (b.apply vs).Blind
  := by
  unfold apply
  split
  · unfold enterFrame
    split
    · exact (bindings_blind _).bind fun bs => (Blind.pushFrame bs).bind depthValue_blind
    · exact .raise _ _
  · apply (Argument.int_blind _).bind
    intro depth
    split
    · exact .raise _ _
    · exact (Blind.popFrames _).bind fun _ => .pure _
  · exact Argument.toThunk_blind _
  · exact .throwValue _
  · exact Blind.capture.bind fun snapshot =>
      (Blind.changeStateIn snapshot _).bind fun _ => .native _
  · exact Blind.capture.bind fun _ => .native _
  · exact (Blind.checkArity _ _ _).bind fun _ => .pure _

end Builtin

/-! ### Coroutines, timers and instruments -/

/-- The condition of a breakpoint outside of coroutines. -/
theorem Run.scopeViolation_blind (op : Symbol) (vs : List Value) :
  (Run.scopeViolation op vs).Blind
  := (Blind.mapM Blind.textOf vs).bind fun _ => .raiseWith _ _ _

/-- Asking for the state of an execution. -/
theorem CoroutineOp.stateOf_blind (id : Nat) :
  (CoroutineOp.stateOf id).Blind
  := (Blind.executionState id).bind fun _ => .pure _

/-- A thunk in a context. -/
theorem Trampoline.inContext_blind (snapshot : Context Value) (v : Value) :
  (inContext snapshot v).Blind
  := by
  unfold inContext
  split
  · exact (Blind.native _).bind fun g => .thunk g
  · exact .pure _

/-- Noting a timer. -/
theorem TimerOp.schedule_blind (time callback value : Value) :
  (TimerOp.schedule time callback value).Blind
  := by
  apply (Argument.int_blind time).bind
  intro n
  split
  · exact .raise _ _
  · refine Blind.bind ?_ fun _ => .pure _
    exact fun _ _ _ => .ok _ rfl

namespace Instrument

/-- An instrument as a function. -/
theorem toValue_blind (i : Instrument) :
  i.toValue.Blind
  := .native _

/-- A thunk of an instrument. -/
theorem pending_blind (i : Instrument) :
  (pending i).Blind
  := i.toValue_blind.bind fun f => .thunk f

/-- A chain of thunks. -/
theorem steps_blind (n : Nat) :
  (steps n).Blind
  := by
  cases n with
  | zero => exact .pure _
  | succ n => exact pending_blind _

/-- What a call of the operation delivers. -/
theorem request_blind (args : List Value) :
  (request args).Blind
  := fun _ _ _ => .ok _ rfl

/-- Leaving a continuation to be called later. -/
theorem postpone_blind (k v : Value) :
  (postpone k v).Blind
  := fun _ _ _ => .ok _ rfl

/-- The value of an awaited call of the operation. -/
theorem answerWith_blind (args : List Value) :
  (answerWith args).Blind
  := by
  unfold answerWith
  split
  · exact (request_blind _).bind fun _ => Blind.capture.bind fun snapshot =>
      (Blind.changeStateIn snapshot _).bind fun _ => .ofExcept _
  · exact .fault _

/-- Receiving a result. -/
theorem receiveResult_blind (outcome : Outcome) (v : Value) :
  (receiveResult outcome v).Blind
  := by
  refine Blind.bind ?_ fun _ => .pure _
  exact fun _ _ _ => .ok _ rfl

end Instrument

end Skein
