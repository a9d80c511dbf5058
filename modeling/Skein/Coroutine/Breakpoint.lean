import Skein.Compile.Error
import Skein.Coroutine.Scope
import Skein.Expr

/-!
# Breakpoints

A breakpoint is an operation whose calls inside a coroutine body are replaced by code that
hands the rest of the body to somebody else.  A handler makes that code from a call; a
table gives each of its breakpoints a handler; a flavor of coroutines is a table with a
name.
-/

namespace Skein.Coroutine

/-- What a handler knows about the call that it replaces. -/
structure Site where
  /-- The operation that is called. -/
  op : Symbol
  /-- The names bound around the call. -/
  bound : Bound
  /-- The continuation that receives the value of the call. -/
  success : Symbol
  /-- The continuation that receives an error raised after the suspension. -/
  failure : Symbol

/-- A handler makes the code that replaces a call from the arguments of the call. -/
abbrev Handler := Site → List Expr → Except CompileError Expr

/-- The breakpoints of a flavor in the order in which they were added, each once. -/
structure Table where
  entries : List (Symbol × Handler)

namespace Table

/-- The table without breakpoints. -/
def empty : Table := ⟨[]⟩

/-- The handler of a breakpoint. -/
def handler? (t : Table) (op : Symbol) : Option Handler :=
  (t.entries.find? fun (name, _) => name == op).map (·.2)

/-- Whether an operation is a breakpoint. -/
def has (t : Table) (op : Symbol) : Bool := t.entries.any fun (name, _) => name == op

/-- The names of the breakpoints. -/
def ops (t : Table) : List Symbol := t.entries.map (·.1)

/-- Add a breakpoint that the table does not have. -/
def add (t : Table) (op : Symbol) (handler : Handler) : Except CompileError Table :=
  if t.has op then .error (.duplicateBreakpoint op)
  else .ok ⟨t.entries ++ [(op, handler)]⟩

/-- The table of some breakpoints.  Their names are numbered as they are added. -/
def ofList (entries : List (Symbol × Handler)) : Compiling Table :=
  entries.foldlM (fun t (op, handler) => do
    Compiling.intern op
    Compiling.ofExcept (t.add op handler)) empty

end Table

/-- Replace `(await op args...)` by the call of `op` with `args` and the two wrapped
continuations of the site. -/
def await : Handler := fun site args =>
  match args with
  | [] => .error (.badBreakpointCall site.op "expected an operation to call")
  | op :: rest =>
    .ok (.call op (rest ++
      [.call (.builtin .awaitResume) [.var site.success],
       .call (.builtin .awaitReject) [.var site.failure]]))

/-- The flavor of `async` coroutines. -/
def defaultFlavor : String := "async"

/-- The table whose only breakpoint is `await`. -/
def Table.default : Table := ⟨[("await", await)]⟩

/-- Tables with names; the table added last under a name counts. -/
structure Flavors where
  tables : List (String × Table)

namespace Flavors

/-- The flavors that need not be added. -/
def default : Flavors := ⟨[(defaultFlavor, Table.default)]⟩

/-- Add a flavor, or replace the one of that name. -/
def add (f : Flavors) (name : String) (table : Table) : Flavors :=
  ⟨(name, table) :: f.tables⟩

/-- The table of a flavor. -/
def table (f : Flavors) (name : String) : Except CompileError Table :=
  match f.tables.find? fun (n, _) => n == name with
  | some (_, t) => .ok t
  | none => .error (.unknownFlavor name)

end Flavors

end Skein.Coroutine
