import Skein.Native.Argument

/-!
# Sequences

Lists, vectors and the empty value, which is a sequence without elements.  Strings can be
counted too.
-/

namespace Skein.SequenceOp

/-- The element at an index, counted from zero. -/
def element (items : List Value) (index : Value) : Run Value :=
  match index.int? with
  | none => Run.raise .typeError ("nth: expected integer, got " ++ index.typeName)
  | some n =>
    match if n < 0 then none else items[n.toInt.toNat]? with
    | some v => return v
    | none =>
      Run.raise .error ("nth: index " ++ toString n.toInt ++ " out of bounds for length "
        ++ toString items.length)

/-- How many elements or characters a value has. -/
def size : Value → Run Nat
  | .scalar (.string s) => return s.length
  | v => return (← Argument.elements v).length

/-- Apply a function on sequences. -/
def apply (op : SequenceOp) (args : List Value) : Run Value :=
  match op, args with
  | .list, vs => return .list vs
  | .vector, vs => return .vector vs
  | .cons, [v, s] => return .list (v :: (← Argument.elements s))
  | .first, [s] => return ((← Argument.elements s).head?).getD .nil
  | .rest, [s] => return .list (← Argument.elements s).tail
  | .nth, [s, index] => do element (← Argument.elements s) index
  | .count, [s] => return .int (Int64.ofNat (← size s))
  | .isEmpty, [s] => return .bool ((← size s) == 0)
  | .conj, .vector items :: vs => return .vector (items ++ vs)
  | .conj, s :: vs => return .list (vs.reverse ++ (← Argument.elements s))
  | _, _ => return .nil

end Skein.SequenceOp
