import Skein.Datum

/-!
# Compile errors

Why a form cannot be compiled.
-/

namespace Skein

/-- How a form is malformed. -/
inductive FormFault where
  /-- A form lacks a part, or has a part that is not what it needs. -/
  | requires (form part : String)
  /-- A part of a form has to be of some type. -/
  | notA (part type : String) (found : Datum)
  /-- A counted loop has to have one name and one count. -/
  | badCounter
  /-- A loop binds a name twice. -/
  | repeatedName (name : Symbol)
  /-- A clause after another one is neither a catch nor a cleanup. -/
  | notAClause (found : Datum)
  /-- A clause follows the cleanup. -/
  | cleanupNotLast

/-- The wording of a fault. -/
def FormFault.text : FormFault → String
  | requires form part => form ++ " requires " ++ part
  | notA part type found => part ++ " must be a " ++ type ++ ", got " ++ found.text
  | badCounter => "dotimes binding must be [name count]"
  | repeatedName name => "loop binding \x60" ++ name ++ "\x60 appears more than once"
  | notAClause found => "expected catch or finally clause, got " ++ found.text
  | cleanupNotLast => "finally must be the last clause of try"

/-- Why a form cannot be compiled. -/
inductive CompileError where
  /-- A form is malformed. -/
  | malformed (fault : FormFault)
  /-- A breakpoint is used in a function literal inside a coroutine body. -/
  | scopeViolation (op : Symbol) (form : String)
  /-- A re-entry is not in tail position of a loop. -/
  | misplacedRecur (form : String)
  /-- A re-entry has another number of values than its loop has bindings. -/
  | recurArity (expected found : Nat)
  /-- A table has a breakpoint already. -/
  | duplicateBreakpoint (op : Symbol)
  /-- A handler refuses a call. -/
  | badBreakpointCall (op : Symbol) (reason : String)
  /-- No flavor has this name. -/
  | unknownFlavor (name : String)

/-- The wording of a compile error. -/
def CompileError.text : CompileError → String
  | malformed fault => "syntax error: " ++ fault.text
  | scopeViolation op form =>
    "scope violation: \x60" ++ op ++ "\x60 cannot be used inside a nested function literal: "
      ++ form
  | misplacedRecur form => "recur is only allowed in tail position of a loop: " ++ form
  | recurArity expected found =>
    "recur expects " ++ toString expected ++ " argument(s), got " ++ toString found
  | duplicateBreakpoint op =>
    "breakpoint \x60" ++ op ++ "\x60 is already registered in this table"
  | badBreakpointCall op reason => "bad call to breakpoint \x60" ++ op ++ "\x60: " ++ reason
  | unknownFlavor name => "unknown coroutine flavor: " ++ name

/-- Compiling mints names and can fail; the symbol table is kept on failure. -/
abbrev Compiling := EStateM CompileError SymbolTable

/-- Mint a name. -/
def fresh (stem : String) : Compiling Symbol := modifyGet (·.mint stem)

/-- Give a name a number. -/
def Compiling.intern (name : Symbol) : Compiling Unit := modify (·.insert name)

/-- The result of a step that neither mints names nor interns them. -/
def Compiling.ofExcept {α : Type} : Except CompileError α → Compiling α
  | .ok a => pure a
  | .error e => throw e

end Skein
