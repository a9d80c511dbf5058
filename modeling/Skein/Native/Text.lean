import Skein.Machine

/-!
# Writing values

Joining and printing the texts of values, where strings stand for themselves.
-/

namespace Skein.TextOp

/-- Apply a function that writes values. -/
def apply (op : TextOp) (args : List Value) : Run Value := do
  let texts ← args.mapM Run.plainTextOf
  match op with
  | .str => return .string (String.join texts)
  | .println =>
    Run.printLine (Text.spaced texts)
    return .nil

end Skein.TextOp
