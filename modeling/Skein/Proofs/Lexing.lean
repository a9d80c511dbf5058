import Skein.Proofs.Spelling

/-!
# Tokens and gaps

A text is divided into an interpreter line at its very start, if there is one, and gaps and tokens
in turn, with nothing left over.  A gap is made of separators and comments.  A word is a run of
characters that goes on neither to the left nor to the right.  Where no token is spelled, the
division ends with a fault.  The place of a token, or of a fault, is told by the characters before
it: by the number of line breaks among them, and by how many there are behind the last line break.

There is exactly one such division of a text, and scanning finds it.
-/

namespace Skein.Source

variable {c : Char} {cs s gap spelling before rest line : List Char} {token : Token}
  {fault : ReadFault} {lexemes : List Lexeme} {error : Option ReadError}

/-! ### Places -/

/-- The place behind some characters of a text: its line is one more than the line breaks among
them, and its column one more than the characters behind the last line break. -/
def Location.behind (before : List Char) : Location :=
  ⟨1 + before.count '\n', 1 + (before.reverse.takeWhile (· ≠ '\n')).length⟩

/-- The place behind one more character. -/
theorem Location.behind_concat (before : List Char) (c : Char) :
  behind (before ++ [c]) = (behind before).after c
  := by
  unfold behind after
  rw [List.count_append, List.reverse_concat, List.takeWhile_cons]
  by_cases hc : c = '\n'
  · subst hc
    rfl
  · simp only [hc, ne_eq, not_false_eq_true, decide_true, if_true, if_false, List.length_cons,
      List.count_cons_of_ne hc, List.count_nil, Nat.add_zero, Nat.add_assoc]

/-- The place behind some more characters. -/
theorem Location.behind_append (before cs : List Char) :
  behind (before ++ cs) = (behind before).afterAll cs
  := by
  induction cs generalizing before with
  | nil => rw [List.append_nil, afterAll_nil]
  | cons c cs ih => rw [List.append_cons, ih, behind_concat, afterAll_cons]

/-! ### Gaps -/

/-- A gap before some characters: separators, and comments, of which the last one may end with
the text. -/
inductive Gap : List Char → List Char → Prop where
  | nil (rest : List Char) : Gap [] rest
  | separator {c : Char} {gap rest : List Char} (hc : isSeparator c = true) (h : Gap gap rest) :
    Gap (c :: gap) rest
  | comment {line gap rest : List Char} (hline : '\n' ∉ line) (h : Gap gap rest) :
    Gap (';' :: (line ++ '\n' :: gap)) rest
  | lastComment {line : List Char} (hline : '\n' ∉ line) : Gap (';' :: line) []

/-- No gap starts with some characters. -/
def NoGap (cs : List Char) : Prop := ∀ c ∈ cs.head?, isSeparator c = false ∧ c ≠ ';'

/-- A comment is skipped with the line break behind it. -/
theorem skipGap_comment (hline : '\n' ∉ line) (loc : Location) (cs : List Char) :
  skipGap true loc (line ++ '\n' :: cs) = skipGap false ((loc.afterAll line).after '\n') cs
  := by
  induction line generalizing loc with
  | nil => rfl
  | cons c line ih =>
    have hc : decide (c ≠ '\n') = true := decide_eq_true (List.ne_of_not_mem_cons hline).symm
    rw [List.cons_append, skipGap, if_pos rfl, hc, ih (List.not_mem_of_not_mem_cons hline),
      Location.afterAll_cons]

/-- A comment is skipped to the end of the text. -/
theorem skipGap_lastComment (hline : '\n' ∉ line) (loc : Location) :
  skipGap true loc line = (loc.afterAll line, [])
  := by
  induction line generalizing loc with
  | nil => rfl
  | cons c line ih =>
    have hc : decide (c ≠ '\n') = true := decide_eq_true (List.ne_of_not_mem_cons hline).symm
    rw [skipGap, if_pos rfl, hc, ih (List.not_mem_of_not_mem_cons hline), Location.afterAll_cons]

/-- A semicolon starts a comment. -/
theorem skipGap_semicolon (loc : Location) (cs : List Char) :
  skipGap false loc (';' :: cs) = skipGap true (loc.after ';') cs
  := by
  rw [skipGap, if_neg Bool.false_ne_true, if_neg (by decide), if_pos rfl]

/-- A gap is skipped. -/
theorem Gap.skip (h : Gap gap rest) (hrest : NoGap rest) (loc : Location) :
  skipGap false loc (gap ++ rest) = (loc.afterAll gap, rest)
  := by
  induction h generalizing loc with
  | nil rest =>
    cases rest with
    | nil => rfl
    | cons c rest =>
      obtain ⟨hc, hcomment⟩ := hrest c rfl
      rw [List.nil_append, skipGap, if_neg Bool.false_ne_true, if_neg (ne_true_of_eq_false hc),
        if_neg hcomment, Location.afterAll_nil]
  | separator hc _ ih =>
    rw [List.cons_append, skipGap, if_neg Bool.false_ne_true, if_pos hc, ih hrest,
      Location.afterAll_cons]
  | comment hline _ ih =>
    rw [List.cons_append, List.append_assoc, List.cons_append, skipGap_semicolon,
      skipGap_comment hline, ih hrest, Location.afterAll_cons, Location.afterAll_append,
      Location.afterAll_cons]
  | lastComment hline =>
    rw [List.append_nil, skipGap_semicolon, skipGap_lastComment hline, Location.afterAll_cons]

/-- Every text starts with a gap, which may be empty, and goes on with no gap. -/
theorem exists_gap (cs : List Char) :
  ∃ gap rest, cs = gap ++ rest ∧ Gap gap rest ∧ NoGap rest
  := by
  match cs with
  | [] => exact ⟨[], [], rfl, .nil _, nofun⟩
  | c :: cs =>
    by_cases hc : isSeparator c = true
    · obtain ⟨gap, rest, rfl, hgap, hrest⟩ := exists_gap cs
      exact ⟨c :: gap, rest, rfl, .separator hc hgap, hrest⟩
    · by_cases hcomment : c = ';'
      · subst hcomment
        by_cases hbreak : '\n' ∈ cs
        · obtain ⟨line, cs, rfl, hline⟩ := List.eq_append_cons_of_mem hbreak
          obtain ⟨gap, rest, rfl, hgap, hrest⟩ := exists_gap cs
          refine ⟨';' :: (line ++ '\n' :: gap), rest, ?_, .comment hline hgap, hrest⟩
          rw [List.cons_append, List.append_assoc, List.cons_append]
        · exact ⟨';' :: cs, [], (List.append_nil _).symm, .lastComment hbreak, nofun⟩
      · refine ⟨[], c :: cs, rfl, .nil _, ?_⟩
        rintro _ ⟨⟩
        exact ⟨Bool.eq_false_iff.2 hc, hcomment⟩
termination_by cs.length
decreasing_by all_goals simp_all <;> omega

/-- A gap before something ends with a separator. -/
theorem Gap.isSeparator_getLast (h : Gap gap rest) (hrest : rest ≠ []) :
  ∀ c ∈ gap.getLast?, isSeparator c = true
  := by
  induction h with
  | nil => nofun
  | @separator c gap _ hc _ ih =>
    cases gap with
    | nil =>
      rintro _ ⟨⟩
      exact hc
    | cons d gap =>
      rw [List.getLast?_cons_cons]
      exact ih hrest
  | @comment line gap _ _ _ ih =>
    rw [← List.cons_append, List.getLast?_append]
    cases gap with
    | nil =>
      rintro _ ⟨⟩
      decide
    | cons d gap =>
      rw [List.getLast?_cons_cons, List.getLast?_cons, Option.some_or]
      rw [List.getLast?_cons] at ih
      exact ih hrest
  | lastComment => exact absurd rfl hrest

/-! ### Spellings -/

/-- Some characters between the quotes of a string, and those that they stand for. -/
inductive Contents : List Char → List Char → Prop where
  | nil : Contents [] []
  | plain {c : Char} {cs s : List Char} (hquote : c ≠ '"') (hescape : c ≠ '\\')
    (h : Contents cs s) : Contents (c :: cs) (c :: s)
  | escape (c : Char) {cs s : List Char} (h : Contents cs s) :
    Contents ('\\' :: c :: cs) (stringBody.unescape c :: s)

/-- Between other characters, some characters are a whole run: it goes on neither to the left nor
to the right. -/
structure IsRun (before run rest : List Char) : Prop where
  chars : ∀ c ∈ run, isRunChar c = true
  starts : ∀ c ∈ before.getLast?, isRunChar c = false
  ends : Ends rest

/-- The spelling of a token between other characters: a bracket, a quote mark, a string in quotes,
or a whole run for a symbol, a number, or a keyword with its colon. -/
inductive Token.Spelled (before rest : List Char) : Token → List Char → Prop where
  | opening (b : Bracket) : Spelled before rest (.opening b) [b.left]
  | closing (b : Bracket) : Spelled before rest (.closing b) [b.right]
  | quote : Spelled before rest .quote ['\'']
  | string {cs s : List Char} (h : Contents cs s) :
    Spelled before rest (.string (String.ofList s)) ('"' :: (cs ++ ['"']))
  | word {token : Token} {c : Char} {cs : List Char} (hrun : IsRun before (c :: cs) rest)
    (h : wordOf c cs = .ok token) : Spelled before rest token (c :: cs)

/-- Some characters, behind others, start with something that spells no token: a run that is no
number and no keyword, or a string that the text ends in. -/
inductive Misspelled (before : List Char) : List Char → ReadFault → Prop where
  | word {c : Char} {cs rest : List Char} {fault : ReadFault}
    (hrun : IsRun before (c :: cs) rest) (h : wordOf c cs = .error fault) :
    Misspelled before (c :: cs ++ rest) fault
  | string {cs s : List Char} (h : Contents cs s) :
    Misspelled before ('"' :: cs) .unterminatedString
  | escape {cs s : List Char} (h : Contents cs s) :
    Misspelled before ('"' :: (cs ++ ['\\'])) .unterminatedEscape

/-- The characters of a string are read up to the closing quote. -/
theorem Contents.read (h : Contents cs s) (loc : Location) (rest : List Char) :
  stringBody loc (cs ++ '"' :: rest) = .ok (s, (loc.afterAll cs).after '"', rest)
  := by
  induction h generalizing loc with
  | nil => rfl
  | plain hquote hescape _ ih =>
    rw [List.cons_append, stringBody_cons hquote hescape, ih]
    rfl
  | escape c _ ih =>
    rw [List.cons_append, List.cons_append, stringBody, ih]
    rfl

/-- A string without a closing quote is a fault. -/
theorem Contents.read_unterminated (h : Contents cs s) (loc : Location) :
  stringBody loc cs = .error .unterminatedString
  := by
  induction h generalizing loc with
  | nil => rfl
  | plain hquote hescape _ ih =>
    rw [stringBody_cons hquote hescape, ih]
    rfl
  | escape c _ ih =>
    rw [stringBody, ih]
    rfl

/-- A string that ends in an escape is a fault. -/
theorem Contents.read_escape (h : Contents cs s) (loc : Location) :
  stringBody loc (cs ++ ['\\']) = .error .unterminatedEscape
  := by
  induction h generalizing loc with
  | nil => rfl
  | plain hquote hescape _ ih =>
    rw [List.cons_append, stringBody_cons hquote hescape, ih]
    rfl
  | escape c _ ih =>
    rw [List.cons_append, List.cons_append, stringBody, ih]
    rfl

/-- What follows an opening quote is the contents of a string up to a closing quote, or up to the
end, or up to a backslash at the end. -/
theorem exists_contents (cs : List Char) :
  (∃ body s rest, cs = body ++ '"' :: rest ∧ Contents body s) ∨ (∃ s, Contents cs s) ∨
    ∃ body s, cs = body ++ ['\\'] ∧ Contents body s
  := by
  match cs with
  | [] => exact .inr (.inl ⟨[], .nil⟩)
  | c :: cs =>
    by_cases hquote : c = '"'
    · exact .inl ⟨[], [], cs, by rw [hquote]; rfl, .nil⟩
    by_cases hescape : c = '\\'
    · subst hescape
      cases cs with
      | nil => exact .inr (.inr ⟨[], [], rfl, .nil⟩)
      | cons c cs =>
        rcases exists_contents cs with ⟨body, s, rest, rfl, h⟩ | ⟨s, h⟩ | ⟨body, s, rfl, h⟩
        · exact .inl ⟨_, _, rest, rfl, .escape c h⟩
        · exact .inr (.inl ⟨_, .escape c h⟩)
        · exact .inr (.inr ⟨_, _, rfl, .escape c h⟩)
    · rcases exists_contents cs with ⟨body, s, rest, rfl, h⟩ | ⟨s, h⟩ | ⟨body, s, rfl, h⟩
      · exact .inl ⟨_, _, rest, rfl, .plain hquote hescape h⟩
      · exact .inr (.inl ⟨_, .plain hquote hescape h⟩)
      · exact .inr (.inr ⟨_, _, rfl, .plain hquote hescape h⟩)
termination_by cs.length

/-- A run starts with no gap. -/
theorem IsRun.starts_no_gap (h : IsRun before (c :: cs) rest) :
  isSeparator c = false ∧ c ≠ ';'
  := by
  obtain ⟨hsep, hdelim⟩ := isRunChar_iff.1 (h.chars c List.mem_cons_self)
  exact ⟨hsep, (not_isDelimiter_iff.1 hdelim).2.2.2.2.2.2⟩

/-- A spelling has characters, and starts with no gap. -/
theorem Token.Spelled.starts (h : token.Spelled before rest spelling) :
  ∃ c cs, spelling = c :: cs ∧ isSeparator c = false ∧ c ≠ ';'
  := by
  cases h with
  | opening b => exact ⟨_, _, rfl, by cases b <;> decide, by cases b <;> decide⟩
  | closing b => exact ⟨_, _, rfl, by cases b <;> decide, by cases b <;> decide⟩
  | quote => exact ⟨_, _, rfl, by decide, by decide⟩
  | string => exact ⟨_, _, rfl, by decide, by decide⟩
  | word hrun => exact ⟨_, _, rfl, hrun.starts_no_gap⟩

/-- What spells no token starts with no gap. -/
theorem Misspelled.starts (h : Misspelled before cs fault) :
  ∃ c cs', cs = c :: cs' ∧ isSeparator c = false ∧ c ≠ ';'
  := by
  cases h with
  | word hrun => exact ⟨_, _, rfl, hrun.starts_no_gap⟩
  | string => exact ⟨_, _, rfl, by decide, by decide⟩
  | escape => exact ⟨_, _, rfl, by decide, by decide⟩

/-- A spelling is scanned to its token. -/
theorem Token.Spelled.scan (h : token.Spelled before rest spelling) (loc : Location) :
  scanFrom false loc (spelling ++ rest) =
    ([⟨loc, token⟩] ++ (scanFrom false (loc.afterAll spelling) rest).1,
      (scanFrom false (loc.afterAll spelling) rest).2)
  := by
  obtain ⟨c, cs, rfl, hsep, hcomment⟩ := h.starts
  have hscan : ∃ hlength, scanToken loc c (cs ++ rest) =
      .ok (token, (loc.after c).afterAll cs, ⟨rest, hlength⟩) := by
    cases h with
    | opening b => exact ⟨Nat.le_refl _, by cases b <;> rfl⟩
    | closing b => exact ⟨Nat.le_refl _, by cases b <;> rfl⟩
    | quote => exact ⟨Nat.le_refl _, rfl⟩
    | @string cs s hs =>
      have hbody := hs.read (loc.after '"') rest
      rw [← List.singleton_append, ← List.append_assoc] at hbody
      refine ⟨length_stringBody_le hbody, (scanToken_string hbody).trans ?_⟩
      rw [Location.afterAll_append]
      rfl
    | word hrun hword =>
      have hcs : ∀ d ∈ cs, isRunChar d = true := fun d hd => hrun.chars d (.tail c hd)
      refine ⟨(List.sublist_append_right cs rest).length_le, ?_⟩
      rw [scanToken_run (hrun.chars c List.mem_cons_self) hcs hrun.ends, hword]
      rfl
  obtain ⟨hlength, hscan⟩ := hscan
  exact scanFrom_token hsep hcomment hscan

/-- What spells no token is scanned to its fault, at its first character. -/
theorem Misspelled.scan (h : Misspelled before cs fault) (loc : Location) :
  scanFrom false loc cs = ([], some ⟨fault, loc⟩)
  := by
  obtain ⟨c, cs, rfl, hsep, hcomment⟩ := h.starts
  have hscan : scanToken loc c cs = .error fault := by
    cases h with
    | @word _ cs rest _ hrun hword =>
      have hcs : ∀ d ∈ cs, isRunChar d = true := fun d hd => hrun.chars d (.tail c hd)
      change scanToken loc c (cs ++ rest) = _
      rw [scanToken_run (hrun.chars c List.mem_cons_self) hcs hrun.ends, hword]
      rfl
    | string hs => exact scanToken_string_error (hs.read_unterminated _)
    | escape hs => exact scanToken_string_error (hs.read_escape _)
  rw [scanFrom_eq, skipGap, if_neg Bool.false_ne_true, if_neg (ne_true_of_eq_false hsep),
    if_neg hcomment, scanAfter, hscan]

/-! ### Runs -/

/-- Characters behind others do not go on with a run that the others end with. -/
def Fresh (before cs : List Char) : Prop :=
  (∀ c ∈ before.getLast?, isRunChar c = false) ∨ Ends cs

/-- A character that is in no run ends a run. -/
theorem Fresh.concat (h : isRunChar c = false) :
  Fresh (before ++ [c]) rest
  := by
  refine .inl ?_
  rw [List.getLast?_concat]
  rintro _ ⟨⟩
  exact h

/-- A gap ends a run. -/
theorem Fresh.behind_gap (h : Fresh before (gap ++ rest)) (hgap : Gap gap rest) :
  Fresh (before ++ gap) rest
  := by
  cases rest with
  | nil => exact .inr nofun
  | cons c rest =>
    cases gap with
    | nil =>
      rw [List.append_nil]
      exact h
    | cons d gap =>
      have hlast := hgap.isSeparator_getLast (List.cons_ne_nil c rest)
      rw [List.getLast?_cons] at hlast
      refine .inl ?_
      rw [List.getLast?_append, List.getLast?_cons, Option.some_or]
      rintro _ ⟨⟩
      rw [isRunChar, hlast _ rfl]
      rfl

/-- A token ends a run, its own if it is a word. -/
theorem Token.Spelled.fresh (h : token.Spelled before rest spelling) :
  Fresh (before ++ spelling) rest
  := by
  cases h with
  | opening b => exact .concat (by cases b <;> decide)
  | closing b => exact .concat (by cases b <;> decide)
  | quote => exact .concat (by decide)
  | string =>
    rw [← List.cons_append, ← List.append_assoc]
    exact .concat (by decide)
  | word hrun => exact .inr hrun.ends

/-- Characters are dropped up to one that is not to be dropped. -/
theorem of_mem_head?_dropWhile {p : Char → Bool} (h : c ∈ (cs.dropWhile p).head?) :
  p c = false
  := by
  have hnot := List.head?_dropWhile_not p cs
  rw [Option.mem_def.1 h] at hnot
  exact hnot

/-- What starts with no gap starts with the spelling of a token, or with something that spells
none. -/
theorem exists_spelled {c : Char} {cs : List Char} (hfresh : Fresh before (c :: cs))
    (hgap : NoGap (c :: cs)) :
  (∃ token spelling rest, c :: cs = spelling ++ rest ∧ Token.Spelled before rest token spelling) ∨
    ∃ fault, Misspelled before (c :: cs) fault
  := by
  obtain ⟨hsep, hcomment⟩ := hgap c rfl
  by_cases hrun : isRunChar c = true
  · have hcs : IsRun before (c :: cs.takeWhile isRunChar) (cs.dropWhile isRunChar) := by
      refine ⟨?_, hfresh.resolve_right fun h => ?_, ?_⟩
      · exact List.forall_mem_cons.2 ⟨hrun, List.all_eq_true.1 List.all_takeWhile⟩
      · rw [h c rfl] at hrun
        cases hrun
      · exact fun d hd => of_mem_head?_dropWhile hd
    have happend : c :: cs = c :: cs.takeWhile isRunChar ++ cs.dropWhile isRunChar := by
      rw [List.cons_append, List.takeWhile_append_dropWhile]
    cases hword : wordOf c (cs.takeWhile isRunChar) with
    | error fault =>
      refine .inr ⟨fault, ?_⟩
      rw [happend]
      exact .word hcs hword
    | ok token => exact .inl ⟨token, _, _, happend, .word hcs hword⟩
  · have hdelim : isDelimiter c = true := by
      rw [isRunChar, hsep] at hrun
      simpa using hrun
    simp only [isDelimiter, Bool.or_eq_true, decide_eq_true_eq, or_assoc] at hdelim
    rcases hdelim with rfl | rfl | rfl | rfl | rfl | rfl | rfl
    · exact .inl ⟨_, _, cs, rfl, .opening .round⟩
    · exact .inl ⟨_, _, cs, rfl, .closing .round⟩
    · exact .inl ⟨_, _, cs, rfl, .opening .square⟩
    · exact .inl ⟨_, _, cs, rfl, .closing .square⟩
    · exact .inl ⟨_, _, cs, rfl, .quote⟩
    · rcases exists_contents cs with ⟨body, s, rest, rfl, h⟩ | ⟨s, h⟩ | ⟨body, s, rfl, h⟩
      · refine .inl ⟨_, _, rest, ?_, .string h⟩
        rw [List.cons_append, List.append_assoc, List.singleton_append]
      · exact .inr ⟨_, .string h⟩
      · exact .inr ⟨_, .escape h⟩
    · exact absurd rfl hcomment

/-! ### Divisions -/

/-- Some characters, behind others, are divided into gaps and tokens in turn, up to the end or up
to a fault.  A token and a fault are placed behind all that is before them. -/
inductive Lexed : List Char → List Char → List Lexeme → Option ReadError → Prop where
  | ended {before gap : List Char} (hgap : Gap gap []) : Lexed before gap [] none
  | token {before gap spelling rest : List Char} {token : Token} {lexemes : List Lexeme}
    {error : Option ReadError} (hgap : Gap gap (spelling ++ rest))
    (htoken : token.Spelled (before ++ gap) rest spelling)
    (h : Lexed (before ++ gap ++ spelling) rest lexemes error) :
    Lexed before (gap ++ (spelling ++ rest)) (⟨.behind (before ++ gap), token⟩ :: lexemes) error
  | fault {before gap rest : List Char} {fault : ReadFault} (hgap : Gap gap rest)
    (hfault : Misspelled (before ++ gap) rest fault) :
    Lexed before (gap ++ rest) [] (some ⟨fault, .behind (before ++ gap)⟩)

/-- Characters that go on with no run have a division. -/
theorem Fresh.exists_lexed {before cs : List Char} (h : Fresh before cs) :
  ∃ lexemes error, Lexed before cs lexemes error
  := by
  obtain ⟨gap, rest, rfl, hgap, hrest⟩ := exists_gap cs
  match hmatch : rest with
  | [] =>
    rw [List.append_nil]
    exact ⟨[], none, .ended hgap⟩
  | c :: cs =>
    rcases exists_spelled (h.behind_gap hgap) hrest with
      ⟨token, spelling, tail, hsplit, htoken⟩ | ⟨fault, hfault⟩
    · have hlength : tail.length < (gap ++ c :: cs).length := by
        obtain ⟨_, _, rfl, -⟩ := htoken.starts
        rw [hsplit]
        simp only [List.length_append, List.length_cons]
        omega
      obtain ⟨lexemes, error, hlexed⟩ := htoken.fresh.exists_lexed
      rw [hsplit] at hgap ⊢
      exact ⟨_, error, .token hgap htoken hlexed⟩
    · exact ⟨[], _, .fault hgap hfault⟩
termination_by cs.length

/-- Scanning is right about a gap: it goes on behind it. -/
theorem Gap.scan (h : Gap gap rest) (hrest : NoGap rest) (loc : Location) :
  scanFrom false loc (gap ++ rest) = scanFrom false (loc.afterAll gap) rest
  := by
  have hskip := (Gap.nil rest).skip hrest (loc.afterAll gap)
  rw [List.nil_append, Location.afterAll_nil] at hskip
  rw [scanFrom_eq, scanFrom_eq, h.skip hrest, hskip]

/-- Scanning finds a division. -/
theorem Lexed.scan {before cs : List Char} (h : Lexed before cs lexemes error) :
  scanFrom false (.behind before) cs = (lexemes, error)
  := by
  induction h with
  | @ended before gap hgap =>
    have hscan := hgap.scan nofun (.behind before)
    rw [List.append_nil, scanFrom_nil] at hscan
    exact hscan
  | @token before gap spelling rest token lexemes error hgap htoken _ ih =>
    obtain ⟨c, cs, rfl, hc⟩ := htoken.starts
    have hrest : NoGap (c :: cs ++ rest) := by
      rintro _ ⟨⟩
      exact hc
    rw [hgap.scan hrest, ← Location.behind_append, htoken.scan, ← Location.behind_append, ih]
    rfl
  | @fault before gap rest fault hgap hfault =>
    obtain ⟨c, cs, rfl, hc⟩ := hfault.starts
    have hrest : NoGap (c :: cs) := by
      rintro _ ⟨⟩
      exact hc
    rw [hgap.scan hrest, ← Location.behind_append, hfault.scan]

/-- Scanning finds the one division of characters that go on with no run. -/
theorem Fresh.lexed_iff {before cs : List Char} (h : Fresh before cs) :
  Lexed before cs lexemes error ↔ scanFrom false (.behind before) cs = (lexemes, error)
  := by
  refine ⟨Lexed.scan, fun hscan => ?_⟩
  obtain ⟨lexemes', error', hlexed⟩ := h.exists_lexed
  rw [hlexed.scan] at hscan
  cases hscan
  exact hlexed

/-! ### Interpreter lines -/

/-- The interpreter line of a text, without the line break that ends it; nothing if there is
none. -/
def interpreterLine (cs : List Char) : List Char :=
  if hasInterpreterLine cs then cs.takeWhile (· ≠ '\n') else []

/-- Without its interpreter line, a text is what is left of it. -/
theorem interpreterLine_append (cs : List Char) :
  interpreterLine cs ++ dropInterpreterLine cs = cs
  := by
  unfold interpreterLine dropInterpreterLine
  split
  · exact List.takeWhile_append_dropWhile
  · rfl

/-- What is left of a text starts with no run character. -/
theorem fresh_dropInterpreterLine (cs : List Char) :
  Fresh (interpreterLine cs) (dropInterpreterLine cs)
  := by
  unfold interpreterLine dropInterpreterLine
  split
  · refine .inr fun c hc => ?_
    have hbreak : c = '\n' := by simpa using of_mem_head?_dropWhile hc
    rw [hbreak]
    decide
  · exact .inl nofun

/-- An interpreter line has no line break. -/
theorem not_mem_interpreterLine (cs : List Char) :
  '\n' ∉ interpreterLine cs
  := by
  unfold interpreterLine
  split
  · intro h
    have hbreak := List.all_eq_true.1 List.all_takeWhile '\n' h
    exact absurd hbreak (by decide)
  · exact List.not_mem_nil

/-- Behind an interpreter line, what is left of a text starts with a line break. -/
theorem dropInterpreterLine_eq {cs : List Char} (h : hasInterpreterLine cs = true) :
  dropInterpreterLine cs = [] ∨ ∃ rest, dropInterpreterLine cs = '\n' :: rest
  := by
  cases hdrop : dropInterpreterLine cs with
  | nil => exact .inl rfl
  | cons c rest =>
    rw [dropInterpreterLine, if_pos h] at hdrop
    have hhead : c ∈ (cs.dropWhile (· ≠ '\n')).head? := by rw [hdrop]; rfl
    have hc : c = '\n' := by simpa using of_mem_head?_dropWhile hhead
    exact .inr ⟨rest, by rw [hc]⟩

/-- The line break behind a line starts the second line. -/
theorem Location.behind_line (hline : '\n' ∉ line) :
  (behind line).after '\n' = start.after '\n'
  := by
  simp only [after, behind, List.count_eq_zero_of_not_mem hline, if_true, start]

/-- A text is scanned like what is left of it behind its interpreter line, and so is what is left
of it alone. -/
theorem scanFrom_dropInterpreterLine (cs : List Char) :
  scanFrom (hasInterpreterLine cs) .start cs =
      scanFrom false (.behind (interpreterLine cs)) (dropInterpreterLine cs) ∧
    scanFrom false .start (dropInterpreterLine cs) =
      scanFrom false (.behind (interpreterLine cs)) (dropInterpreterLine cs)
  := by
  cases h : hasInterpreterLine cs with
  | false =>
    rw [interpreterLine, dropInterpreterLine, h]
    exact ⟨rfl, rfl⟩
  | true =>
    have hline := not_mem_interpreterLine cs
    have hbehind : .behind (interpreterLine cs) = Location.start.afterAll (interpreterLine cs) :=
      Location.behind_append [] (interpreterLine cs)
    have hsplit := interpreterLine_append cs
    rcases dropInterpreterLine_eq h with hdrop | ⟨rest, hdrop⟩
    · rw [hdrop, List.append_nil] at hsplit
      rw [hdrop, scanFrom_nil, scanFrom_nil, scanFrom_eq, ← hsplit, skipGap_lastComment hline]
      exact ⟨rfl, rfl⟩
    · rw [hdrop, scanFrom_separator (by decide), scanFrom_separator (by decide),
        Location.behind_line hline]
      refine ⟨?_, rfl⟩
      rw [hdrop] at hsplit
      rw [← hsplit, scanFrom_eq, scanFrom_eq, skipGap_comment hline, ← hbehind,
        Location.behind_line hline]

/-- Scanning divides a text.  Behind its interpreter line, there is exactly one way to divide a text
into gaps and tokens in turn, up to its end or up to a fault, and scanning finds it: the tokens, the
place of each, and the fault with the place of its first character.  The tokens that are read are
those of the text without its interpreter line, and they are the same, at the same places, as those
of the text itself. -/
theorem scan_partitions (source : String) :
  interpreterLine source.toList ++ dropInterpreterLine source.toList = source.toList ∧
  (∀ lexemes error,
    Lexed (interpreterLine source.toList) (dropInterpreterLine source.toList) lexemes error ↔
      scan source = (lexemes, error)) ∧
  scan (String.ofList (dropInterpreterLine source.toList)) = scan source ∧
  ∀ t, tokens source t = match scan source with
    | (lexemes, none) => .ok lexemes t
    | (_, some error) => .error error t
  := by
  obtain ⟨hsource, hleft⟩ := scanFrom_dropInterpreterLine source.toList
  have hscan : scan (String.ofList (dropInterpreterLine source.toList)) = scan source := by
    have hline : hasInterpreterLine (dropInterpreterLine source.toList) = false := by
      cases h : hasInterpreterLine source.toList with
      | false => rw [dropInterpreterLine, h, if_neg Bool.false_ne_true, h]
      | true => rcases dropInterpreterLine_eq h with hdrop | ⟨rest, hdrop⟩ <;> rw [hdrop] <;> rfl
    rw [scan, scan, String.toList_ofList, hline, hsource, hleft]
  refine ⟨interpreterLine_append _, fun lexemes error => ?_, hscan, fun t => ?_⟩
  · rw [scan, hsource]
    exact (fresh_dropInterpreterLine source.toList).lexed_iff
  · unfold tokens
    rw [hscan]
    rcases scan source with ⟨lexemes, _ | error⟩ <;> rfl

end Skein.Source
