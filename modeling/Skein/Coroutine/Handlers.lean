import Skein.Coroutine.Breakpoint

/-!
# More handlers

Handlers for breakpoints that deliver at once: `twice` delivers the double of its
argument, `locals` the names bound around the call together with its arguments, and
`fail` an error.
-/

namespace Skein.Coroutine

/-- Deliver the double of the only argument. -/
def twice : Handler := fun site args =>
  match args with
  | [a] => .ok (.send site.success (.call (.var "*") [a, .literal (.scalar (.int 2))]))
  | _ => .error (.badBreakpointCall site.op "expected one argument")

/-- Deliver a vector of the names bound around the call, innermost first, and of the
arguments. -/
def locals : Handler := fun site args =>
  let names := Datum.vector (site.bound.map fun name => .scalar (.string name))
  .ok (.send site.success (.call (.var "vector") (.literal names :: args)))

/-- Hand the arguments to the continuation for errors. -/
def fail : Handler := fun site args => .ok (.call (.var site.failure) args)

end Skein.Coroutine
