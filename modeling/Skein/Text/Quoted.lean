import Skein.Text.Extending
import Skein.Text.Unprintable

/-!
# Quoted text

The printed form of a string: a pair of double quotes around its characters, in which
quotes, backslashes, line breaks, tabs and the null character have two-character escapes,
and every other character without a printed form, and every mark that extends the
character before it, is written by its code point.
-/

namespace Skein.Text

/-- A number in hexadecimal, lower case and without padding. -/
def hexadecimal (n : Nat) : List Char := Nat.toDigits 16 n

/-- Whether a character is one of the printed ASCII characters. -/
def isPlainAscii (c : Char) : Bool := ' ' ≤ c && c ≤ '~'

/-- How a character is written between the quotes. -/
def escapeChar (c : Char) : List Char :=
  if c = '"' then ['\\', '"']
  else if c = '\\' then ['\\', '\\']
  else if isPlainAscii c then [c]
  else if c = '\n' then ['\\', 'n']
  else if c = '\r' then ['\\', 'r']
  else if c = '\t' then ['\\', 't']
  else if c.toNat = 0 then ['\\', '0']
  else if isExtending c || isUnprintable c then
    ['\\', 'u', '\x7b'] ++ hexadecimal c.toNat ++ ['\x7d']
  else [c]

/-- The printed form of a string. -/
def quoted (s : String) : String :=
  String.ofList ('"' :: (s.toList.flatMap escapeChar ++ ['"']))

end Skein.Text
