import Skein.Datum

/-!
# Special forms

The forms that are not calls, told apart by the symbol they start with.
-/

namespace Skein.Compile

/-- The kinds of forms that are not calls. -/
inductive SpecialForm where
  | quote
  | ifElse
  | sequence
  | bind
  | loop
  | recur
  | protect
  | define
  | function
  | defineFunction
  | async
  | coroutine
  | cond
  | whenTrue
  | whenFalse
  | conjunction
  | disjunction
  | repeatWhile
  | countUp
  | dynamic
deriving DecidableEq, Repr

namespace SpecialForm

/-- The symbol that a special form starts with. -/
def name : SpecialForm → Symbol
  | quote => "quote"
  | ifElse => "if"
  | sequence => "do"
  | bind => "let"
  | loop => "loop"
  | recur => "recur"
  | protect => "try"
  | define => "def"
  | function => "fn"
  | defineFunction => "defn"
  | async => "async"
  | coroutine => "coroutine"
  | cond => "cond"
  | whenTrue => "when"
  | whenFalse => "unless"
  | conjunction => "and"
  | disjunction => "or"
  | repeatWhile => "while"
  | countUp => "dotimes"
  | dynamic => "binding"

/-- All special forms. -/
def all : List SpecialForm :=
  [quote, ifElse, sequence, bind, loop, recur, protect, define, function, defineFunction,
   async, coroutine, cond, whenTrue, whenFalse, conjunction, disjunction, repeatWhile,
   countUp, dynamic]

/-- The special form that starts with a symbol. -/
def ofName? (name : Symbol) : Option SpecialForm := all.find? (·.name == name)

/-- Every special form is listed. -/
theorem mem_all (s : SpecialForm) :
  s ∈ all
  := by
  cases s <;> decide

/-- A special form is found by its name. -/
@[simp] theorem ofName?_name (s : SpecialForm) :
  ofName? s.name = some s
  := by
  cases s <;> cbv

/-- What is found by a name has the name. -/
theorem name_of_ofName? {name : Symbol} {s : SpecialForm} (h : ofName? name = some s) :
  s.name = name
  := by
  rw [ofName?] at h
  exact eq_of_beq (List.find?_some h :)

/-- The special forms have different names. -/
theorem name_injective : Function.Injective name
  := by
  intro s s' h
  have hs := congrArg ofName? h
  rw [ofName?_name, ofName?_name] at hs
  exact Option.some.inj hs

end SpecialForm

end Skein.Compile
