import Skein.Source.Location

/-!
# Tokens

The words of source text, each with its place, and what can be wrong with a text.
-/

namespace Skein.Source

/-- The two kinds of brackets. -/
inductive Bracket where
  | round
  | square
deriving DecidableEq, Repr, Inhabited

/-- What a pair of brackets encloses. -/
def Bracket.noun : Bracket → String
  | round => "list"
  | square => "vector"

/-- What a closing bracket is called. -/
def Bracket.closer : Bracket → String
  | round => "parenthesis"
  | square => "bracket"

/-- A word of source text. -/
inductive Token where
  | opening (b : Bracket)
  | closing (b : Bracket)
  | quote
  | symbol (name : String)
  | keyword (name : String)
  | int (n : Int64)
  | float (x : Float)
  | string (s : String)
  | bool (b : Bool)
  | nil
deriving Inhabited

/-- A token and the place of its first character. -/
structure Lexeme where
  location : Location
  token : Token
deriving Inhabited

/-- What is wrong with a text. -/
inductive ReadFault where
  | unterminatedString
  | unterminatedEscape
  | missingKeywordName
  | badInteger (spelling : String)
  | badFloat (spelling : String)
  | unexpectedClosing (b : Bracket)
  | unterminated (b : Bracket)
  | unexpectedEnd
  | noInput
deriving DecidableEq, Repr

/-- The wording of a fault. -/
def ReadFault.text : ReadFault → String
  | unterminatedString => "unterminated string"
  | unterminatedEscape => "unterminated string escape"
  | missingKeywordName => "invalid keyword: expected name after :"
  | badInteger spelling => "invalid integer: " ++ spelling
  | badFloat spelling => "invalid float: " ++ spelling
  | unexpectedClosing b => "unexpected closing " ++ b.closer
  | unterminated b => "unterminated " ++ b.noun
  | unexpectedEnd => "unexpected end of input"
  | noInput => "no input"

/-- A fault and its place. -/
structure ReadError where
  fault : ReadFault
  location : Location
deriving DecidableEq, Repr

/-- The wording of an error: its place and its fault. -/
def ReadError.text (e : ReadError) : String := e.location.text ++ ": " ++ e.fault.text

end Skein.Source
