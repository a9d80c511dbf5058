/-!
# Symbols

A symbol is its spelling.  A `SymbolTable` numbers the spellings it has been given, in
the order in which they came, and mints names it has never held: `intern` answers with
the number of a spelling, `mint` with a spelling of the form `stem#n` that is new to the
table.
-/

namespace Skein

/-- A symbol is its spelling. -/
abbrev Symbol := String

/-- The spellings that have been numbered, and the last counter value that was tried for
a minted name. -/
structure SymbolTable where
  /-- The spellings in the order of their numbers. -/
  names : Array Symbol
  /-- The counter shared by all stems of minted names. -/
  counter : Nat
deriving DecidableEq, Repr, Inhabited

namespace SymbolTable

/-- The table that has numbered nothing. -/
def empty : SymbolTable := ⟨#[], 0⟩

/-- How many spellings have a number. -/
def size (t : SymbolTable) : Nat := t.names.size

/-- The number of a spelling. -/
def id? (t : SymbolTable) (name : Symbol) : Option Nat := t.names.findIdx? (· == name)

/-- Whether a spelling has a number. -/
def has (t : SymbolTable) (name : Symbol) : Bool := (t.id? name).isSome

/-- The spelling that has a number. -/
def name? (t : SymbolTable) (n : Nat) : Option Symbol := t.names[n]?

/-- The spelling that has a number, or a stand-in for a number that was never given. -/
def label (t : SymbolTable) (n : Nat) : String :=
  (t.name? n).getD ("#<symbol:" ++ toString n ++ ">")

/-- The number of a spelling, which is the next free one when the spelling is new. -/
def intern (t : SymbolTable) (name : Symbol) : Nat × SymbolTable :=
  match t.id? name with
  | some n => (n, t)
  | none => (t.size, { t with names := t.names.push name })

/-- The table after a spelling has been given a number. -/
def insert (t : SymbolTable) (name : Symbol) : SymbolTable := (t.intern name).2

/-- The table after some spellings have been given numbers, in their order. -/
def insertAll (t : SymbolTable) (names : List Symbol) : SymbolTable :=
  names.foldl insert t

/-- A spelling has a number exactly when it has been given one. -/
theorem has_eq_true_iff {t : SymbolTable} {name : Symbol} :
  t.has name = true ↔ name ∈ t.names
  := by
  simp [has, id?, Array.mem_iff_getElem]

/-- Numbering a spelling adds that spelling and no other. -/
theorem mem_names_insert {t : SymbolTable} {name other : Symbol} :
  other ∈ (t.insert name).names ↔ other ∈ t.names ∨ other = name
  := by
  unfold insert intern
  split
  · next n h =>
    have : name ∈ t.names := has_eq_true_iff.1 (by simp [has, h])
    grind
  · simp

/-- The minted spelling for a stem and a counter value. -/
def spell (stem : String) (n : Nat) : Symbol := stem ++ "#" ++ toString n

/-- The first counter value above `n` whose spelling is new, where at most `tries` values
are found to be taken. -/
def firstFree (t : SymbolTable) (stem : String) : (tries n : Nat) → Nat
  | 0, n => n + 1
  | tries + 1, n =>
    if t.has (spell stem (n + 1)) then t.firstFree stem tries (n + 1) else n + 1

/-- Mint a spelling that the table does not hold, and number it.  The table holds `size`
spellings, so at most that many counter values are taken. -/
def mint (t : SymbolTable) (stem : String) : Symbol × SymbolTable :=
  let n := t.firstFree stem t.size t.counter
  let name := spell stem n
  (name, ⟨t.names.push name, n⟩)

end SymbolTable

end Skein
