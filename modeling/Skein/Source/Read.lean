import Skein.Datum
import Skein.Source.Scan

/-!
# Reading

How tokens are put together to data.  The tokens are read from left to right with a stack
of what is still open: brackets with the data read so far inside them, and quote marks
that wait for the datum they quote.  `readAll` reads every form of a text, `readOne` its
first form.  The symbols that are met are numbered in a symbol table, also when reading
fails.
-/

namespace Skein.Source

/-- Reading numbers symbols and can fail; the table is kept on failure. -/
abbrev Reading := EStateM ReadError SymbolTable

/-- Something that is still open. -/
inductive Pending where
  /-- An opening bracket, and the data after it, the last one first. -/
  | sequence (b : Bracket) (location : Location) (items : List Datum)
  /-- A quote mark. -/
  | quote (location : Location)

/-- The error when the tokens end here. -/
def Pending.unfinished : Pending → ReadError
  | sequence b location _ => ⟨.unterminated b, location⟩
  | quote location => ⟨.unexpectedEnd, location⟩

/-- The datum between two brackets. -/
def Bracket.enclose : Bracket → List Datum → Datum
  | round, items => .list items
  | square, items => .vector items

/-- What has been read: a whole form, or a part of one. -/
inductive Progress where
  | form (d : Datum)
  | inside (open_ : List Pending)

/-- Number a symbol. -/
def intern (name : Symbol) : Reading Unit := modify (·.insert name)

/-- Put a finished datum where it belongs.  A quote mark makes it the second element of a
list that starts with `quote`. -/
def settle (d : Datum) : List Pending → Reading Progress
  | [] => return .form d
  | .sequence b location items :: rest =>
    return .inside (.sequence b location (d :: items) :: rest)
  | .quote _ :: rest => do
    intern "quote"
    settle (.list [.symbol "quote", d]) rest

/-- Read one token. -/
def readToken (open_ : List Pending) (lexeme : Lexeme) : Reading Progress :=
  match lexeme.token with
  | .opening b => return .inside (.sequence b lexeme.location [] :: open_)
  | .quote => return .inside (.quote lexeme.location :: open_)
  | .closing b =>
    match open_ with
    | .sequence b' _ items :: rest =>
      if b = b' then settle (b.enclose items.reverse) rest
      else throw ⟨.unexpectedClosing b, lexeme.location⟩
    | _ => throw ⟨.unexpectedClosing b, lexeme.location⟩
  | .symbol name => do
    intern name
    settle (.symbol name) open_
  | .keyword name => settle (.scalar (.keyword name)) open_
  | .int n => settle (.scalar (.int n)) open_
  | .float x => settle (.scalar (.float x)) open_
  | .string s => settle (.scalar (.string s)) open_
  | .bool b => settle (.scalar (.bool b)) open_
  | .nil => settle .nil open_

/-- Read every form of some tokens. -/
def parse (open_ : List Pending) : List Lexeme → Reading (List Datum)
  | [] =>
    match open_ with
    | [] => return []
    | pending :: _ => throw pending.unfinished
  | lexeme :: lexemes => do
    match ← readToken open_ lexeme with
    | .form d => return d :: (← parse [] lexemes)
    | .inside open_ => parse open_ lexemes

/-- Read the first form of some tokens. -/
def parseOne (open_ : List Pending) : List Lexeme → Reading Datum
  | [] =>
    match open_ with
    | [] => throw ⟨.noInput, .start⟩
    | pending :: _ => throw pending.unfinished
  | lexeme :: lexemes => do
    match ← readToken open_ lexeme with
    | .form d => return d
    | .inside open_ => parseOne open_ lexemes

/-- Drop an interpreter line, but not the line break that ends it. -/
def dropInterpreterLine (cs : List Char) : List Char :=
  if hasInterpreterLine cs then cs.dropWhile (· ≠ '\n') else cs

/-- All tokens of a text without its interpreter line. -/
def tokens (source : String) : Reading (List Lexeme) :=
  match scan (String.ofList (dropInterpreterLine source.toList)) with
  | (lexemes, none) => return lexemes
  | (_, some error) => throw error

/-- Read every form of a text. -/
def readAll (source : String) : Reading (List Datum) := do
  parse [] (← tokens source)

/-- Read the first form of a text; all of it has to be made of tokens. -/
def readOne (source : String) : Reading Datum := do
  parseOne [] (← tokens source)

end Skein.Source
