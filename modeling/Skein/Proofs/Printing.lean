import Mathlib.Data.List.TakeWhile
import Skein.Proofs.Spelling
import Skein.Value.Text

/-!
# Printed data are read back

Data without floats are printed so that they are read back, when their symbols and keywords have
names that the scanner finds, and their strings need no escapes by code point.
-/

namespace Skein

namespace Source

variable {c : Char} {cs cs' : List Char} {token : Token} {x : String}

/-! ### Names that the scanner finds -/

/-- The scanner finds a token in some text. -/
def Token.Occurs (token : Token) : Prop :=
  ∃ source, ∃ l ∈ (scan source).1, l.token = token

/-- The name of a symbol or of a keyword. -/
inductive Token.Names : Token → String → Prop where
  | symbol (x : String) : Names (.symbol x) x
  | keyword (x : String) : Names (.keyword x) x

/-- What is left after a gap starts with no separator and no comment. -/
theorem not_gap_of_skipGap {comment : Bool} {loc here : Location}
    (h : skipGap comment loc cs = (here, c :: cs')) :
  isSeparator c = false ∧ c ≠ ';'
  := by
  fun_induction skipGap comment loc cs with
  | case1 => cases h
  | case2 loc c cs ih => exact ih h
  | case3 comment loc c cs _ _ ih => exact ih h
  | case4 loc c cs _ _ ih => exact ih h
  | case5 comment loc d ds hcomment hsep hsemi =>
    cases h
    exact ⟨Bool.eq_false_iff.2 hsep, hsemi⟩

/-- What follows the longest run of characters does not go on with it. -/
theorem ends_dropWhile (cs : List Char) :
  Ends (cs.dropWhile isRunChar)
  := by
  intro c hc
  have h := List.head?_dropWhile_not isRunChar cs
  rw [hc] at h
  exact h

/-- A token with a name is a word. -/
theorem isWord_of_scanToken {loc next : Location} {rest : { rest : List Char // rest.length ≤ cs.length }}
    (hsep : isSeparator c = false) (hsemi : c ≠ ';')
    (h : scanToken loc c cs = .ok (token, next, rest)) (hname : token.Names x) :
  token.IsWord c (cs.takeWhile isRunChar)
  := by
  have hrun : ∀ d ∈ cs.takeWhile isRunChar, isRunChar d = true :=
    fun d hd => List.mem_takeWhile_imp hd
  have hstarts := startsNumber_append c (cs.takeWhile isRunChar) (ends_dropWhile cs)
  rw [List.takeWhile_append_dropWhile] at hstarts
  unfold scanToken at h
  dsimp only at h
  rw [hstarts] at h
  have hword : ∀ {r : Except ReadFault Token},
      r.map (fun t => (t, (loc.after c).afterAll (cs.takeWhile isRunChar),
        (⟨cs.dropWhile isRunChar, length_dropWhile_le isRunChar cs⟩ :
          { rest : List Char // rest.length ≤ cs.length }))) = .ok (token, next, rest) →
      r = .ok token := by
    intro r hr
    cases r with
    | error => cases hr
    | ok t =>
      cases hr
      rfl
  split_ifs at h with h₁ h₂ h₃ h₄ h₅ h₆ h₇ h₈
  · cases h
    cases hname
  · cases h
    cases hname
  · cases h
    cases hname
  · cases h
    cases hname
  · cases h
    cases hname
  · split at h
    · cases h
    · cases h
      cases hname
  · subst h₇
    exact ⟨by decide, hrun, (if_pos rfl).trans (hword h)⟩
  · have hc := isRunChar_iff.2 ⟨hsep, not_isDelimiter_iff.2 ⟨h₁, h₂, h₃, h₄, h₅, h₆, hsemi⟩⟩
    exact ⟨hc, hrun, (if_neg h₇).trans ((if_pos h₈).trans (hword h))⟩
  · have hc := isRunChar_iff.2 ⟨hsep, not_isDelimiter_iff.2 ⟨h₁, h₂, h₃, h₄, h₅, h₆, hsemi⟩⟩
    have hother := hword (r := .ok (wordToken (c :: cs.takeWhile isRunChar))) h
    exact ⟨hc, hrun, (if_neg h₇).trans ((if_neg h₈).trans hother)⟩

/-- The tokens with names that the scanner finds are words. -/
theorem isWord_of_mem_scanFrom {comment : Bool} {loc : Location} {cs : List Char} {l : Lexeme}
    (h : l ∈ (scanFrom comment loc cs).1) (hname : l.token.Names x) :
  ∃ c cs', l.token.IsWord c cs'
  := by
  rw [scanFrom_eq] at h
  match hskip : skipGap comment loc cs with
  | (_, []) =>
    rw [hskip] at h
    cases h
  | (here, c :: rest) =>
    have hlength := length_skipGap_le comment loc cs
    rw [hskip] at h hlength
    rw [scanAfter] at h
    split at h
    · cases h
    · rename_i token next rest' hscan
      obtain ⟨hsep, hsemi⟩ := not_gap_of_skipGap hskip
      rcases List.mem_append.1 h with h | h
      · obtain rfl := List.mem_singleton.1 h
        exact ⟨c, _, isWord_of_scanToken hsep hsemi hscan hname⟩
      · have hless : rest'.1.length < cs.length := Nat.lt_of_le_of_lt rest'.2 hlength
        exact isWord_of_mem_scanFrom h hname
termination_by cs.length

/-- A run of characters after a colon is the name of a keyword. -/
theorem eq_keyword_of_keywordToken (h : keywordToken cs = .ok token) :
  token = .keyword (String.ofList cs)
  := by
  unfold keywordToken at h
  split at h
  · cases h
  · cases h
    rfl

/-- A number has no name. -/
theorem not_names_of_numberToken (h : numberToken cs = .ok token) :
  ¬ token.Names x
  := by
  unfold numberToken at h
  split at h <;> split at h <;> cases h <;> exact nofun

/-- A word that is neither a keyword nor a number has itself as its name, if it has one. -/
theorem eq_symbol_of_wordToken (h : wordToken cs = token) (hname : token.Names x) :
  token = .symbol (String.ofList cs)
  := by
  unfold wordToken at h
  split_ifs at h
  · cases h
    cases hname
  · cases h
    cases hname
  · cases h
    cases hname
  · exact h.symm

/-- A word with a name: a keyword, or a symbol. -/
theorem Token.IsWord.eq_of_names (h : token.IsWord c cs) (hname : token.Names x) :
  c = ':' ∧ token = .keyword (String.ofList cs) ∨ token = .symbol (String.ofList (c :: cs))
  := by
  have htoken := h.2.2
  unfold wordOf at htoken
  split_ifs at htoken with hcolon hnumber
  · exact .inl ⟨hcolon, eq_keyword_of_keywordToken htoken⟩
  · exact absurd hname (not_names_of_numberToken htoken)
  · exact .inr (eq_symbol_of_wordToken (Except.ok.inj htoken) hname)

/-- The name of a symbol is its word. -/
theorem Token.Occurs.symbol (h : (Token.symbol x).Occurs) :
  ∃ c cs, x.toList = c :: cs ∧ (Token.symbol x).IsWord c cs
  := by
  obtain ⟨source, ⟨loc, token⟩, hl, rfl⟩ := h
  obtain ⟨c, cs, hword⟩ := isWord_of_mem_scanFrom hl (.symbol x)
  rcases hword.eq_of_names (.symbol x) with ⟨-, heq⟩ | heq
  · cases heq
  · cases heq
    exact ⟨c, cs, String.toList_ofList, hword⟩

/-- The name of a keyword is its word after the colon. -/
theorem Token.Occurs.keyword (h : (Token.keyword x).Occurs) :
  (Token.keyword x).IsWord ':' x.toList
  := by
  obtain ⟨source, ⟨loc, token⟩, hl, rfl⟩ := h
  obtain ⟨c, cs, hword⟩ := isWord_of_mem_scanFrom hl (.keyword x)
  rcases hword.eq_of_names (.keyword x) with ⟨rfl, heq⟩ | heq
  · cases heq
    rw [String.toList_ofList]
    exact hword
  · cases heq

/-! ### Brackets -/

/-- The characters of a text in parentheses. -/
theorem toList_round (s : String) :
  ("(" ++ s ++ ")").toList = Bracket.round.left :: (s.toList ++ [Bracket.round.right])
  := by
  rw [String.toList_append, String.toList_append]
  rfl

/-- The characters of a text in square brackets. -/
theorem toList_square (s : String) :
  ("[" ++ s ++ "]").toList = Bracket.square.left :: (s.toList ++ [Bracket.square.right])
  := by
  rw [String.toList_append, String.toList_append]
  rfl

/-! ### Integers -/

/-- Digits are read as the number that they were printed from. -/
theorem ofDigits_toDigits (n : Nat) :
  Number.ofDigits (Nat.toDigits 10 n) = n
  := by
  have h := Nat.ofDigitChars_ten_toDigits (n := n)
  rw [Nat.ofDigitChars_eq_foldl] at h
  exact h

/-- A number is printed as digits. -/
theorem toList_repr (n : Nat) :
  n.repr.toList = Nat.toDigits 10 n
  := by
  have h := congrArg String.toList (Nat.toString_eq_ofList_toDigits (n := n))
  rw [String.toList_ofList] at h
  exact h

/-- A run of digits, behind a minus or not. -/
inductive IsInteger : List Char → Int → Prop where
  | plain (n : Nat) : IsInteger (Nat.toDigits 10 n) n
  | negative (n : Nat) : IsInteger ('-' :: Nat.toDigits 10 n) (-n)

/-- An integer is printed as digits, behind a minus when it is negative. -/
theorem isInteger_toString (z : Int) :
  IsInteger (toString z).toList z
  := by
  rw [Int.toString_eq_repr]
  cases z with
  | ofNat n =>
    rw [Int.repr, toList_repr]
    exact .plain n
  | negSucc n =>
    rw [Int.repr, String.toList_append, toList_repr]
    exact .negative (n + 1)

namespace IsInteger

variable {z : Int}

/-- A run of digits is one. -/
theorem all_isDigit (n : Nat) :
  ∀ c ∈ Nat.toDigits 10 n, c.isDigit = true
  := fun _ hc => Nat.isDigit_of_mem_toDigits (by decide) (by decide) hc

/-- Digits have no sign before them. -/
theorem splitSign_toDigits (n : Nat) :
  Number.splitSign (Nat.toDigits 10 n) = (false, Nat.toDigits 10 n)
  := by
  have hdigits := all_isDigit n
  unfold Number.splitSign
  split
  · rename_i heq
    rw [heq] at hdigits
    exact absurd (hdigits _ List.mem_cons_self) (by decide)
  · rename_i heq
    rw [heq] at hdigits
    exact absurd (hdigits _ List.mem_cons_self) (by decide)
  · rfl

/-- The number that was printed is read. -/
theorem signed? (h : IsInteger cs z) :
  Number.signed? cs = some z
  := by
  have hdigits : ∀ n, ((Nat.toDigits 10 n).isEmpty || !(Nat.toDigits 10 n).all Char.isDigit) =
      false := by
    intro n
    rw [Bool.or_eq_false_iff, List.isEmpty_eq_false_iff, Bool.not_eq_false', List.all_eq_true]
    exact ⟨Nat.toDigits_ne_nil, all_isDigit n⟩
  cases h with
  | plain n =>
    rw [Number.signed?, splitSign_toDigits]
    dsimp only
    rw [hdigits, ofDigits_toDigits]
    rfl
  | negative n =>
    rw [Number.signed?, Number.splitSign]
    dsimp only
    rw [hdigits, ofDigits_toDigits]
    rfl

/-- It is printed with characters of words that no float needs. -/
theorem plain_chars (h : IsInteger cs z) :
  ∀ c ∈ cs, c = '-' ∨ c.isDigit = true
  := by
  cases h with
  | plain n => exact fun c hc => .inr (all_isDigit n c hc)
  | negative n => exact List.forall_mem_cons.2 ⟨.inl rfl, fun c hc => .inr (all_isDigit n c hc)⟩

/-- It starts like a number. -/
theorem startsNumber (h : IsInteger cs z) :
  ∃ c cs', cs = c :: cs' ∧ c ≠ ':' ∧ Source.startsNumber c cs' = true
  := by
  cases h with
  | plain n =>
    obtain ⟨c, cs', hcs⟩ := List.exists_cons_of_ne_nil (Nat.toDigits_ne_nil (n := n) (b := 10))
    have hc : c.isDigit = true := all_isDigit n c (hcs ▸ List.mem_cons_self)
    refine ⟨c, cs', hcs, ?_, ?_⟩
    · rintro rfl
      cases hc
    · rw [Source.startsNumber, hc, Bool.true_or]
  | negative n =>
    obtain ⟨c, cs', hcs⟩ := List.exists_cons_of_ne_nil (Nat.toDigits_ne_nil (n := n) (b := 10))
    have hc : c.isDigit = true := all_isDigit n c (hcs ▸ List.mem_cons_self)
    refine ⟨'-', _, rfl, by decide, ?_⟩
    rw [Source.startsNumber, hcs, List.head?_cons, Option.any_some, hc]
    rfl

end IsInteger

/-- A printed word is a word. -/
theorem isWord_int (n : Int64) :
  ∃ c cs, (toString n.toInt).toList = c :: cs ∧ (Token.int n).IsWord c cs
  := by
  have h := isInteger_toString n.toInt
  obtain ⟨c, cs, hcs, hcolon, hstarts⟩ := h.startsNumber
  have hsigned := h.signed?
  have hchars := h.plain_chars
  rw [hcs] at hsigned hchars
  have hrun : ∀ d ∈ c :: cs, isRunChar d = true := by
    intro d hd
    rcases hchars d hd with rfl | hd
    · decide
    · exact isRunChar_of_isDigit hd
  obtain ⟨hc, hcs'⟩ := List.forall_mem_cons.1 hrun
  refine ⟨c, cs, hcs, hc, hcs', ?_⟩
  have hfloat : ¬ ((c :: cs).any fun c => c = '.' || c = 'e' || c = 'E') = true := by
    rw [List.any_eq_true]
    rintro ⟨d, hd, hfloat⟩
    rw [Bool.or_eq_true, Bool.or_eq_true, decide_eq_true_eq, decide_eq_true_eq,
      decide_eq_true_eq] at hfloat
    rcases hfloat with (rfl | rfl) | rfl <;> exact absurd (hchars _ hd) (by decide)
  have hfits : Number.fitsWord n.toInt = true := by
    rw [Number.fitsWord, Bool.and_eq_true, decide_eq_true_eq, decide_eq_true_eq]
    exact ⟨n.minValue_le_toInt, n.toInt_le⟩
  have hinteger : Number.integer? (c :: cs) = some n := by
    rw [Number.integer?, hsigned, Option.bind_some, Number.word?, if_pos hfits,
      Int64.ofInt_toInt]
  rw [wordOf, if_neg hcolon, if_pos hstarts, numberToken, if_neg hfloat, hinteger]

/-- A word is found by the scanner, for one behind a space. -/
theorem Token.IsWord.occurs (h : token.IsWord c cs) :
  token.Occurs
  := by
  have hends : Ends [] := nofun
  obtain ⟨next, _, hscan⟩ := scanToken_word h hends (Location.start.after ' ')
  obtain ⟨hsep, hdelim⟩ := isRunChar_iff.1 h.1
  have htoken := scanFrom_token hsep (not_isDelimiter_iff.1 hdelim).2.2.2.2.2.2 hscan
  refine ⟨String.ofList (' ' :: (c :: (cs ++ []))), ⟨Location.start.after ' ', token⟩, ?_, rfl⟩
  rw [scan, String.toList_ofList]
  change _ ∈ (scanFrom false .start (' ' :: (c :: (cs ++ [])))).1
  rw [scanFrom_separator (by decide), htoken]
  exact List.mem_cons_self

/-! ### Plain names -/

/-- Some characters are the name of a symbol. -/
def isPlainName : List Char → Bool
  | [] => false
  | c :: cs => (c :: cs).all isRunChar && c ≠ ':' && !startsNumber c cs &&
    c :: cs ∉ [['n', 'i', 'l'], ['t', 'r', 'u', 'e'], ['f', 'a', 'l', 's', 'e']]

/-- A run that is neither a keyword nor a number is a word. -/
theorem isWord_wordToken (hrun : (c :: cs).all isRunChar = true) (hcolon : c ≠ ':')
    (hnumber : startsNumber c cs = false) (hword : wordToken (c :: cs) = token) :
  token.IsWord c cs
  := by
  refine .of_all hrun ?_
  rw [wordOf, if_neg hcolon, if_neg (ne_true_of_eq_false hnumber), hword]

/-- The scanner finds a symbol by its name. -/
theorem Token.Occurs.of_isPlainName {x : String} (h : isPlainName x.toList = true) :
  (Token.symbol x).Occurs
  := by
  match hx : x.toList with
  | [] =>
    rw [hx] at h
    cases h
  | c :: cs =>
    rw [hx] at h
    simp only [isPlainName, Bool.and_eq_true, decide_eq_true_eq, Bool.not_eq_true'] at h
    obtain ⟨⟨⟨hrun, hcolon⟩, hnumber⟩, hother⟩ := h
    have hword : wordToken (c :: cs) = .symbol x := by
      rw [← String.ofList_toList (s := x), hx]
      simp only [List.mem_cons, List.not_mem_nil, or_false, not_or] at hother
      rw [wordToken, if_neg hother.1, if_neg hother.2.1, if_neg hother.2.2]
    exact (isWord_wordToken hrun hcolon hnumber hword).occurs

end Source

namespace Datum

open Source (Token Spells IsPlainText hasInterpreterLine)

/-! ### Printed data -/

/-- Data that are read back: symbols and keywords are named as the scanner finds them, and strings
are printed with simple escapes only. -/
inductive IsPrintable : Datum → Prop where
  | nil : IsPrintable .nil
  | bool (b : Bool) : IsPrintable (.scalar (.bool b))
  | int (n : Int64) : IsPrintable (.scalar (.int n))
  | symbol {x : Symbol} (h : (Token.symbol x).Occurs) : IsPrintable (.symbol x)
  | keyword {x : String} (h : (Token.keyword x).Occurs) : IsPrintable (.scalar (.keyword x))
  | string {s : String} (h : IsPlainText s.toList) : IsPrintable (.scalar (.string s))
  | list {items : List Datum} (h : ∀ d ∈ items, IsPrintable d) : IsPrintable (.list items)
  | vector {items : List Datum} (h : ∀ d ∈ items, IsPrintable d) : IsPrintable (.vector items)

/-- Every element is printed. -/
theorem texts_eq_map (ds : List Datum) :
  texts ds = ds.map text
  := by
  induction ds with
  | nil => rfl
  | cons d ds ih => rw [texts, ih, List.map_cons]

/-- The elements of a sequence are spelled one after the other. -/
theorem spells_texts {items : List Datum} (h : ∀ d ∈ items, Spells d.text.toList [d]) :
  Spells (Text.spaced (texts items)).toList items
  := by
  have hall : List.Forall₂ (fun text ds => Spells text.toList ds) (items.map text)
      (items.map fun d => [d]) := by
    rw [List.forall₂_map_left_iff, List.forall₂_map_right_iff, List.forall₂_same]
    exact h
  have hrow := Spells.row hall
  rw [← List.flatMap_def, List.flatMap_singleton'] at hrow
  rw [texts_eq_map]
  exact hrow

/-- A printed datum spells the datum. -/
theorem IsPrintable.spells {d : Datum} (h : d.IsPrintable) :
  Spells d.text.toList [d]
  := by
  induction h with
  | nil =>
    have hword : Token.nil.IsWord 'n' ['i', 'l'] :=
      Source.isWord_wordToken (by decide) (by decide) (by decide) (if_pos rfl)
    exact .word hword rfl
  | bool b =>
    cases b with
    | true =>
      have hword : (Token.bool true).IsWord 't' ['r', 'u', 'e'] :=
        Source.isWord_wordToken (by decide) (by decide) (by decide)
          ((if_neg (by decide)).trans (if_pos rfl))
      exact .word hword rfl
    | false =>
      have hword : (Token.bool false).IsWord 'f' ['a', 'l', 's', 'e'] :=
        Source.isWord_wordToken (by decide) (by decide) (by decide)
          ((if_neg (by decide)).trans ((if_neg (by decide)).trans (if_pos rfl)))
      exact .word hword rfl
  | int n =>
    obtain ⟨c, cs, hcs, hword⟩ := Source.isWord_int n
    rw [text, Scalar.text, hcs]
    exact .word hword rfl
  | @symbol x h =>
    obtain ⟨c, cs, hcs, hword⟩ := h.symbol
    change Spells x.toList _
    rw [hcs]
    exact .word hword rfl
  | keyword h =>
    rw [text, Scalar.text, String.toList_append]
    exact .word h.keyword rfl
  | string h => exact .string h
  | list _ ih =>
    rw [text, Source.toList_round]
    exact .bracket .round (spells_texts ih)
  | vector _ ih =>
    rw [text, Source.toList_square]
    exact .bracket .square (spells_texts ih)

/-- Only a symbol is printed like an interpreter line. -/
theorem IsPrintable.hasInterpreterLine_eq_false {d : Datum} (h : d.IsPrintable)
    (hline : ∀ x, d = .symbol x → hasInterpreterLine x.toList = false) :
  hasInterpreterLine d.text.toList = false
  := by
  cases h with
  | symbol => exact hline _ rfl
  | nil => rfl
  | bool b => cases b <;> rfl
  | int n =>
    have hchars := (Source.isInteger_toString n.toInt).plain_chars
    rw [text, Scalar.text]
    unfold hasInterpreterLine
    split
    · rename_i heq
      rw [heq] at hchars
      exact absurd (hchars _ List.mem_cons_self) (by decide)
    · rfl
  | keyword =>
    rw [text, Scalar.text, String.toList_append]
    rfl
  | string =>
    rw [text, Scalar.text, Text.quoted, String.toList_ofList]
    rfl
  | list =>
    rw [text, Source.toList_round]
    rfl
  | vector =>
    rw [text, Source.toList_square]
    rfl

end Datum

/-! ### Values -/

mutual

/-- The text of a value that is a datum. -/
theorem Value.textWith?_ofDatum (atomText : Nat → Option String) (executionText : Nat → String)
    (d : Datum) :
  Value.textWith? atomText executionText (.ofDatum d) = some d.text
  := by
  cases d with
  | scalar s => rfl
  | list items =>
    rw [Value.ofDatum, Value.textWith?, Value.textsWith?_ofData]
    rfl
  | vector items =>
    rw [Value.ofDatum, Value.textWith?, Value.textsWith?_ofData]
    rfl

/-- The texts of values that are data. -/
theorem Value.textsWith?_ofData (atomText : Nat → Option String) (executionText : Nat → String)
    (ds : List Datum) :
  Value.textsWith? atomText executionText (Value.ofData ds) = some (Datum.texts ds)
  := by
  cases ds with
  | nil => rfl
  | cons d ds =>
    rw [Value.ofData, Value.textsWith?, Value.textWith?_ofDatum, Value.textsWith?_ofData]
    rfl

end

/-- Printed data are read back.  The text of a value that is made of data, and is no symbol that
starts like an interpreter line, is read to the same data, with lists read as lists and vectors as
vectors; a table that has numbered the symbols of the value is left as it is. -/
theorem printed_value_is_read_back {d : Datum} (hd : d.IsPrintable)
    (hline : ∀ x, d = .symbol x → Source.hasInterpreterLine x.toList = false) (heap : Heap)
    (t : SymbolTable) :
  ∃ text t', (Value.ofDatum d).text? heap = some text ∧ Source.readOne text t = .ok d t' ∧
    ((∀ x, d.Mentions x → t.has x = true) → t' = t)
  := by
  obtain ⟨names, hnames, hread⟩ := hd.spells.readOne (hd.hasInterpreterLine_eq_false hline)
  rw [String.ofList_toList] at hread
  refine ⟨d.text, t.insertAll names, Value.textWith?_ofDatum _ _ d, hread t, fun ht => ?_⟩
  exact Source.insertAll_eq_self fun x hx => ht x (hnames x hx)

/-- A list with a vector in it. -/
def nested : Datum :=
  .list [.symbol "f", .vector [.scalar (.int (-5)), .scalar (.string "a b")],
    .scalar (.keyword "k")]

/-- The list is printed and read back. -/
theorem nested_is_read_back :
  ∃ t', (Value.ofDatum nested).text? default = some "(f [-5 \"a b\"] :k)" ∧
    Source.readOne "(f [-5 \"a b\"] :k)" .empty = .ok nested t'
  := by
  have hsymbol : (Source.Token.symbol "f").Occurs := .of_isPlainName (by decide +kernel)
  have hkeyword : (Source.Token.keyword "k").IsWord ':' ['k'] := .of_all (by decide) rfl
  have hnested : nested.IsPrintable := by
    refine .list (List.forall_mem_cons.2 ⟨.symbol hsymbol, List.forall_mem_cons.2
      ⟨.vector ?_, List.forall_mem_singleton.2 (.keyword hkeyword.occurs)⟩⟩)
    refine List.forall_mem_cons.2 ⟨.int _, List.forall_mem_singleton.2 (.string ?_)⟩
    simp [Source.IsPlainText, Text.escapeChar, Text.isPlainAscii]
  obtain ⟨text, t', htext, hread, -⟩ := printed_value_is_read_back hnested nofun default .empty
  have hprinted : nested.text = "(f [-5 \"a b\"] :k)" := by decide +kernel
  have heq := Value.textWith?_ofDatum (Value.atomText? default 1) (Heap.executionText default) nested
  rw [hprinted] at heq
  obtain rfl := Option.some.inj (htext.symm.trans heq)
  exact ⟨t', heq, hread⟩

end Skein
