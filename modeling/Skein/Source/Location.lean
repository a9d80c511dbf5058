/-!
# Locations

A place in a source text: a line and a column, both counted from one, where a column is
one character.
-/

namespace Skein.Source

/-- A place in a source text. -/
structure Location where
  line : Nat
  column : Nat
deriving DecidableEq, Repr, Inhabited

namespace Location

/-- The place of the first character. -/
def start : Location := ⟨1, 1⟩

/-- The place after a character. -/
def after (loc : Location) (c : Char) : Location :=
  if c = '\n' then ⟨loc.line + 1, 1⟩ else ⟨loc.line, loc.column + 1⟩

/-- The place after a run of characters. -/
def afterAll (loc : Location) (cs : List Char) : Location := cs.foldl after loc

/-- The text of a location. -/
def text (loc : Location) : String := toString loc.line ++ ":" ++ toString loc.column

/-- No characters lead nowhere. -/
@[simp] theorem afterAll_nil (loc : Location) :
  loc.afterAll [] = loc
  := rfl

/-- A run of characters is passed from its first one on. -/
@[simp] theorem afterAll_cons (loc : Location) (c : Char) (cs : List Char) :
  loc.afterAll (c :: cs) = (loc.after c).afterAll cs
  := rfl

/-- Two runs of characters are passed one after the other. -/
theorem afterAll_append (loc : Location) (cs ds : List Char) :
  loc.afterAll (cs ++ ds) = (loc.afterAll cs).afterAll ds
  := by
  simp [afterAll, List.foldl_append]

end Location

end Skein.Source
