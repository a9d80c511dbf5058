import Skein.Number.Numeral
import Skein.Source.Token
import Skein.Text.Blank

/-!
# Scanning

`scan` splits a text into tokens.  Between tokens it skips blank characters, commas and
comments, which run from a semicolon to the end of the line; a first line that starts
with `#!` is a comment as well.  It stops at the first fault and keeps the tokens before
it.
-/

namespace Skein.Source

/-- Whether a character ends a run and is a token or starts one, or starts a comment. -/
def isDelimiter (c : Char) : Bool :=
  c = '(' || c = ')' || c = '[' || c = ']' || c = '\'' || c = '"' || c = ';'

/-- Whether a character separates tokens. -/
def isSeparator (c : Char) : Bool := Text.isBlank c || c = ','

/-- Whether a character can be part of a symbol, keyword or number. -/
def isRunChar (c : Char) : Bool := !isSeparator c && !isDelimiter c

/-- Skip to the next token, from inside a comment when `comment` holds: the place and the
characters that are left. -/
def skipGap (comment : Bool) (loc : Location) : List Char → Location × List Char
  | [] => (loc, [])
  | c :: cs =>
    if comment then skipGap (c ≠ '\n') (loc.after c) cs
    else if isSeparator c then skipGap false (loc.after c) cs
    else if c = ';' then skipGap true (loc.after c) cs
    else (loc, c :: cs)

/-- Skipping leaves no more characters than there were. -/
theorem length_skipGap_le (comment : Bool) (loc : Location) (cs : List Char) :
  (skipGap comment loc cs).2.length ≤ cs.length
  := by
  fun_induction skipGap comment loc cs <;> simp_all <;> omega

/-- Dropping leaves no more characters than there were. -/
theorem length_dropWhile_le (p : Char → Bool) (cs : List Char) :
  (cs.dropWhile p).length ≤ cs.length
  := (List.dropWhile_sublist p).length_le

/-- The characters of a string after its opening quote, up to the closing one: its
contents, the place after the closing quote, and the characters that are left. -/
def stringBody (loc : Location) :
    List Char → Except ReadFault (List Char × Location × List Char)
  | [] => .error .unterminatedString
  | '"' :: cs => .ok ([], loc.after '"', cs)
  | ['\\'] => .error .unterminatedEscape
  | '\\' :: c :: cs => do
    let (body, rest) ← stringBody ((loc.after '\\').after c) cs
    return (unescape c :: body, rest)
  | c :: cs => do
    let (body, rest) ← stringBody (loc.after c) cs
    return (c :: body, rest)
where
  /-- What a character stands for after a backslash. -/
  unescape (c : Char) : Char :=
    if c = 'n' then '\n' else if c = 't' then '\t' else if c = 'r' then '\r' else c

/-- A string takes its characters from those that it is read from. -/
theorem length_stringBody_le {loc loc' : Location} {cs body rest : List Char}
    (h : stringBody loc cs = .ok (body, loc', rest)) :
  rest.length ≤ cs.length
  := by
  fun_induction stringBody loc cs generalizing body loc' rest with
  | case1 => simp at h
  | case2 => simp_all
  | case3 => simp at h
  | case4 loc c cs ih =>
    match hb : stringBody ((loc.after '\\').after c) cs with
    | .error e => simp [hb, bind, Except.bind] at h
    | .ok (b, l, r) =>
      simp [hb, bind, Except.bind, pure, Except.pure] at h
      have := ih hb
      simp only [List.length_cons, ← h.2.2]
      omega
  | case5 loc c cs _ _ _ ih =>
    match hb : stringBody (loc.after c) cs with
    | .error e => simp [hb, bind, Except.bind] at h
    | .ok (b, l, r) =>
      simp [hb, bind, Except.bind, pure, Except.pure] at h
      have := ih hb
      simp only [List.length_cons, ← h.2.2]
      omega

/-- The token that a run of characters spells, when it does not start like a number. -/
def wordToken (run : List Char) : Token :=
  if run = ['n', 'i', 'l'] then .nil
  else if run = ['t', 'r', 'u', 'e'] then .bool true
  else if run = ['f', 'a', 'l', 's', 'e'] then .bool false
  else .symbol (String.ofList run)

/-- The token that a run of characters spells, when it starts like a number. -/
def numberToken (run : List Char) : Except ReadFault Token :=
  if run.any fun c => c = '.' || c = 'e' || c = 'E' then
    match Number.float? run with
    | some x => .ok (.float x)
    | none => .error (.badFloat (String.ofList run))
  else
    match Number.integer? run with
    | some n => .ok (.int n)
    | none => .error (.badInteger (String.ofList run))

/-- The token that a run of characters after a colon spells. -/
def keywordToken (run : List Char) : Except ReadFault Token :=
  if run.isEmpty then .error .missingKeywordName else .ok (.keyword (String.ofList run))

/-- Whether a run that starts with `c`, followed by `cs`, starts like a number. -/
def startsNumber (c : Char) (cs : List Char) : Bool :=
  c.isDigit || ((c = '-' || c = '+') && cs.head?.any Char.isDigit)

/-- A scanned token, the place after it, and what is left of the characters `cs`. -/
abbrev Scanned (cs : List Char) :=
  Token × Location × { rest : List Char // rest.length ≤ cs.length }

/-- The token that starts with the character `c`, which stands at `loc` before `cs`. -/
def scanToken (loc : Location) (c : Char) (cs : List Char) : Except ReadFault (Scanned cs) :=
  let single (t : Token) : Except ReadFault (Scanned cs) :=
    .ok (t, loc.after c, ⟨cs, Nat.le_refl _⟩)
  let run := cs.takeWhile isRunChar
  let afterRun (t : Token) : Scanned cs :=
    (t, (loc.after c).afterAll run, ⟨cs.dropWhile isRunChar, length_dropWhile_le isRunChar cs⟩)
  if c = '(' then single (.opening .round)
  else if c = ')' then single (.closing .round)
  else if c = '[' then single (.opening .square)
  else if c = ']' then single (.closing .square)
  else if c = '\'' then single .quote
  else if c = '"' then
    match h : stringBody (loc.after c) cs with
    | .error e => .error e
    | .ok (body, loc', rest) =>
      .ok (.string (String.ofList body), loc', ⟨rest, length_stringBody_le h⟩)
  else if c = ':' then (keywordToken run).map afterRun
  else if startsNumber c cs then (numberToken (c :: run)).map afterRun
  else .ok (afterRun (wordToken (c :: run)))

/-- The tokens of some characters, from inside a comment when `comment` holds, and the
fault that ends them. -/
def scanFrom (comment : Bool) (loc : Location) (cs : List Char) :
    List Lexeme × Option ReadError :=
  match _h : skipGap comment loc cs with
  | (_, []) => ([], none)
  | (here, c :: cs') =>
    match scanToken here c cs' with
    | .error fault => ([], some ⟨fault, here⟩)
    | .ok (token, next, ⟨rest, _⟩) =>
      let (lexemes, error) := scanFrom false next rest
      (⟨here, token⟩ :: lexemes, error)
termination_by cs.length
decreasing_by
  have := length_skipGap_le comment loc cs
  simp only [_h, List.length_cons] at this
  omega

/-- Whether a text starts with an interpreter line. -/
def hasInterpreterLine : List Char → Bool
  | '#' :: '!' :: _ => true
  | _ => false

/-- The tokens of a text, and the fault that ends them. -/
def scan (source : String) : List Lexeme × Option ReadError :=
  scanFrom (hasInterpreterLine source.toList) .start source.toList

end Skein.Source
