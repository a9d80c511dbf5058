import Mathlib.Data.List.Forall2
import Skein.Proofs.Grammar

/-!
# Spelled data

Some characters spell data when scanning comes over them to the tokens of the data, whatever
follows that does not go on with the last word.  Words are spelled by their characters, bracketed
data and quoted ones by what their parts are spelled by, and data one after the other with a space
between any two.  A text that spells data is read to them.
-/

namespace Skein.Source

variable {c : Char} {cs rest : List Char} {token : Token} {d : Datum} {ds ds' : List Datum}

/-- Some characters do not go on with a word before them. -/
def Ends (cs : List Char) : Prop := ∀ c ∈ cs.head?, isRunChar c = false

/-- Some characters spell data: scanning comes over them to tokens of the data. -/
def Spells (cs : List Char) (ds : List Datum) : Prop :=
  ∀ loc rest, Ends rest → ∃ ls loc', Forms ls ds ∧ scanFrom false loc (cs ++ rest) =
    (ls ++ (scanFrom false loc' rest).1, (scanFrom false loc' rest).2)

/-! ### Scanning a token -/

/-- The tokens of what is left after a gap. -/
def scanAfter : Location × List Char → List Lexeme × Option ReadError
  | (_, []) => ([], none)
  | (here, c :: cs) =>
    match scanToken here c cs with
    | .error fault => ([], some ⟨fault, here⟩)
    | .ok (token, next, rest) =>
      ([⟨here, token⟩] ++ (scanFrom false next rest.1).1, (scanFrom false next rest.1).2)

/-- Scanning skips a gap. -/
theorem scanFrom_eq (comment : Bool) (loc : Location) (cs : List Char) :
  scanFrom comment loc cs = scanAfter (skipGap comment loc cs)
  := by
  rw [scanFrom]
  split
  · rename_i h
    rw [h]
    rfl
  · rename_i h
    rw [h, scanAfter]
    split
    · rename_i h
      rw [h]
    · rename_i h
      rw [h]
      rfl

/-- There are no tokens in nothing. -/
theorem scanFrom_nil (loc : Location) :
  scanFrom false loc [] = ([], none)
  := scanFrom_eq false loc []

/-- A separator is skipped. -/
theorem scanFrom_separator (h : isSeparator c = true) (loc : Location) (cs : List Char) :
  scanFrom false loc (c :: cs) = scanFrom false (loc.after c) cs
  := by
  rw [scanFrom_eq, scanFrom_eq, skipGap, if_neg Bool.false_ne_true, if_pos h]

/-- A token is scanned before those that follow it. -/
theorem scanFrom_token {loc next : Location}
    {rest : { rest : List Char // rest.length ≤ cs.length }} (hc : isSeparator c = false)
    (hcomment : c ≠ ';') (h : scanToken loc c cs = .ok (token, next, rest)) :
  scanFrom false loc (c :: cs) =
    ([⟨loc, token⟩] ++ (scanFrom false next rest.1).1, (scanFrom false next rest.1).2)
  := by
  rw [scanFrom_eq, skipGap, if_neg Bool.false_ne_true, if_neg (ne_true_of_eq_false hc),
    if_neg hcomment, scanAfter, h]

/-! ### Words -/

/-- The token that a word is, which starts with the character `c`. -/
def wordOf (c : Char) (cs : List Char) : Except ReadFault Token :=
  if c = ':' then keywordToken cs
  else if startsNumber c cs then numberToken (c :: cs)
  else .ok (wordToken (c :: cs))

/-- A token that is a word: its characters can stand in words. -/
def Token.IsWord (token : Token) (c : Char) (cs : List Char) : Prop :=
  isRunChar c = true ∧ (∀ d ∈ cs, isRunChar d = true) ∧ wordOf c cs = .ok token

/-- Whether some characters are a word can be computed. -/
theorem Token.IsWord.of_all (hrun : (c :: cs).all isRunChar = true)
    (hword : wordOf c cs = .ok token) :
  token.IsWord c cs
  := by
  obtain ⟨hc, hcs⟩ := List.forall_mem_cons.1 (List.all_eq_true.1 hrun)
  exact ⟨hc, hcs, hword⟩

/-- No character of a word is a separator, a bracket, or a quote mark. -/
theorem isRunChar_iff :
  isRunChar c = true ↔ isSeparator c = false ∧ isDelimiter c = false
  := by
  rw [isRunChar, Bool.and_eq_true, Bool.not_eq_true', Bool.not_eq_true']

/-- What stands in no word can be a delimiter. -/
theorem not_isDelimiter_iff :
  isDelimiter c = false ↔
    c ≠ '(' ∧ c ≠ ')' ∧ c ≠ '[' ∧ c ≠ ']' ∧ c ≠ '\'' ∧ c ≠ '"' ∧ c ≠ ';'
  := by
  simp only [isDelimiter, Bool.or_eq_false_iff, decide_eq_false_iff_not, and_assoc, ne_eq]

/-- The characters of a word are taken up to its end. -/
theorem takeWhile_isRunChar (hcs : ∀ d ∈ cs, isRunChar d = true) (hrest : Ends rest) :
  (cs ++ rest).takeWhile isRunChar = cs ∧ (cs ++ rest).dropWhile isRunChar = rest
  := by
  rw [List.takeWhile_append_of_pos hcs, List.dropWhile_append_of_pos hcs]
  cases rest with
  | nil => exact ⟨List.append_nil cs, rfl⟩
  | cons d rest =>
    have hd := hrest d rfl
    rw [List.takeWhile_cons, List.dropWhile_cons, hd]
    exact ⟨List.append_nil cs, rfl⟩

/-- Digits can stand in words. -/
theorem isRunChar_of_isDigit (h : c.isDigit = true) :
  isRunChar c = true
  := by
  obtain ⟨hlow, hhigh⟩ : 48 ≤ c.toNat ∧ c.toNat ≤ 57 := by
    simpa [Char.isDigit, UInt32.le_iff_toNat_le] using h
  have hne : ∀ d : Char, d.toNat < 48 ∨ 57 < d.toNat → c ≠ d := by
    rintro d hd rfl
    omega
  refine isRunChar_iff.2 ⟨?_, not_isDelimiter_iff.2 ?_⟩
  · have hblank : Text.isBlank c = false := by
      simp only [Text.isBlank, Text.inRanges, Text.blankRanges, List.any_cons, List.any_nil,
        Bool.or_eq_false_iff, Bool.and_eq_false_iff, decide_eq_false_iff_not, and_true]
      omega
    rw [isSeparator, hblank, Bool.false_or, decide_eq_false_iff_not]
    exact hne ',' (by decide)
  · refine ⟨hne _ ?_, hne _ ?_, hne _ ?_, hne _ ?_, hne _ ?_, hne _ ?_, hne _ ?_⟩ <;> decide

/-- Whether a word starts like a number does not depend on what follows it. -/
theorem startsNumber_append (c : Char) (cs : List Char) (hrest : Ends rest) :
  startsNumber c (cs ++ rest) = startsNumber c cs
  := by
  cases cs with
  | cons d cs => rfl
  | nil =>
    cases rest with
    | nil => rfl
    | cons d rest =>
      have hd : d.isDigit = false := by
        rw [← Bool.not_eq_true]
        intro hdigit
        have hrun := hrest d rfl
        rw [isRunChar_of_isDigit hdigit] at hrun
        cases hrun
      rw [List.nil_append, startsNumber, startsNumber, List.head?_cons, List.head?_nil,
        Option.any_some, Option.any_none, hd]

/-- A run of characters is scanned, up to its end, to the token that it spells. -/
theorem scanToken_run (hc : isRunChar c = true) (hcs : ∀ d ∈ cs, isRunChar d = true)
    (hrest : Ends rest) (loc : Location) :
  scanToken loc c (cs ++ rest) = (wordOf c cs).map fun token =>
    (token, (loc.after c).afterAll cs, ⟨rest, (List.sublist_append_right cs rest).length_le⟩)
  := by
  obtain ⟨h₁, h₂, h₃, h₄, h₅, h₆, -⟩ := not_isDelimiter_iff.1 (isRunChar_iff.1 hc).2
  obtain ⟨htake, hdrop⟩ := takeWhile_isRunChar hcs hrest
  unfold scanToken wordOf
  dsimp only
  rw [if_neg h₁, if_neg h₂, if_neg h₃, if_neg h₄, if_neg h₅, if_neg h₆,
    startsNumber_append c cs hrest]
  simp only [htake, hdrop]
  split_ifs <;> rfl

/-- A word is scanned. -/
theorem scanToken_word (h : token.IsWord c cs) (hrest : Ends rest) (loc : Location) :
  ∃ next hlength, scanToken loc c (cs ++ rest) = .ok (token, next, ⟨rest, hlength⟩)
  := by
  obtain ⟨hc, hcs, hword⟩ := h
  refine ⟨(loc.after c).afterAll cs, (List.sublist_append_right cs rest).length_le, ?_⟩
  rw [scanToken_run hc hcs hrest, hword]
  rfl

/-! ### Strings -/

/-- A string is printed with escapes that the scanner undoes. -/
def IsPlainText (s : List Char) : Prop :=
  ∀ c ∈ s, Text.escapeChar c = [c] ∨ c ∈ ['"', '\\', '\n', '\r', '\t']

/-- A character that is no quote and no backslash is taken as it is. -/
theorem stringBody_cons (hquote : c ≠ '"') (hescape : c ≠ '\\') (loc : Location) :
  stringBody loc (c :: cs) = do
    let (body, rest) ← stringBody (loc.after c) cs
    return (c :: body, rest)
  := by
  rw [stringBody]
  · exact hquote
  · exact fun h _ => hescape h
  · exact fun _ _ h _ => hescape h

/-- A simple escape is undone. -/
theorem exists_unescape (h : c ∈ ['"', '\\', '\n', '\r', '\t']) :
  ∃ e, Text.escapeChar c = ['\\', e] ∧ stringBody.unescape e = c
  := by
  simp only [List.mem_cons, List.not_mem_nil, or_false] at h
  rcases h with rfl | rfl | rfl | rfl | rfl <;> exact ⟨_, rfl, rfl⟩

/-- The characters of a string are those that it was printed from. -/
theorem stringBody_printed {s : List Char} (h : IsPlainText s) (loc : Location) (rest : List Char) :
  ∃ loc', stringBody loc (s.flatMap Text.escapeChar ++ '"' :: rest) = .ok (s, loc', rest)
  := by
  induction s generalizing loc with
  | nil => exact ⟨_, rfl⟩
  | cons c s ih =>
    obtain ⟨hc, hs⟩ := List.forall_mem_cons.1 h
    rw [List.flatMap_cons, List.append_assoc]
    rcases hc with hc | hc
    · obtain ⟨loc', hbody⟩ := ih hs (loc.after c)
      have hquote : c ≠ '"' := by
        rintro rfl
        cases hc
      have hescape : c ≠ '\\' := by
        rintro rfl
        cases hc
      rw [hc, List.singleton_append, stringBody_cons hquote hescape, hbody]
      exact ⟨loc', rfl⟩
    · obtain ⟨e, hc, he⟩ := exists_unescape hc
      obtain ⟨loc', hbody⟩ := ih hs ((loc.after '\\').after e)
      rw [hc, List.cons_append, List.singleton_append, stringBody, hbody, ← he]
      exact ⟨loc', rfl⟩

/-- A string is scanned. -/
theorem scanToken_string {loc next : Location} {body : List Char}
    (h : stringBody (loc.after '"') cs = .ok (body, next, rest)) :
  scanToken loc '"' cs = .ok (.string (String.ofList body), next, ⟨rest, length_stringBody_le h⟩)
  := by
  unfold scanToken
  dsimp only
  rw [if_neg (by decide), if_neg (by decide), if_neg (by decide), if_neg (by decide),
    if_neg (by decide), if_pos rfl]
  split
  · rename_i hbody
    rw [h] at hbody
    cases hbody
  · rename_i hbody
    rw [h] at hbody
    cases hbody
    rfl

/-- What is wrong with a string is wrong with its token. -/
theorem scanToken_string_error {loc : Location} {fault : ReadFault}
    (h : stringBody (loc.after '"') cs = .error fault) :
  scanToken loc '"' cs = .error fault
  := by
  unfold scanToken
  dsimp only
  rw [if_neg (by decide), if_neg (by decide), if_neg (by decide), if_neg (by decide),
    if_neg (by decide), if_pos rfl]
  split
  · rename_i hbody
    rw [h] at hbody
    cases hbody
    rfl
  · rename_i hbody
    rw [h] at hbody
    cases hbody

/-! ### Spelling -/

/-- The bracket that opens. -/
def Bracket.left : Bracket → Char
  | round => '('
  | square => '['

/-- The bracket that closes. -/
def Bracket.right : Bracket → Char
  | round => ')'
  | square => ']'

namespace Spells

/-- A word that is a datum. -/
theorem word (h : token.IsWord c cs) (hd : token.datum? = some d) :
  Spells (c :: cs) [d]
  := by
  intro loc rest hrest
  obtain ⟨next, _, hscan⟩ := scanToken_word h hrest loc
  obtain ⟨hsep, hdelim⟩ := isRunChar_iff.1 h.1
  refine ⟨[⟨loc, token⟩], next, .singleton (.atom hd), ?_⟩
  exact scanFrom_token hsep (not_isDelimiter_iff.1 hdelim).2.2.2.2.2.2 hscan

/-- A printed string. -/
theorem string {s : String} (h : IsPlainText s.toList) :
  Spells (Text.quoted s).toList [.scalar (.string s)]
  := by
  intro loc rest _
  obtain ⟨next, hbody⟩ := stringBody_printed h (loc.after '"') rest
  refine ⟨[⟨loc, .string s⟩], next, .singleton (.atom rfl), ?_⟩
  rw [Text.quoted, String.toList_ofList, List.cons_append, List.append_assoc,
    List.singleton_append]
  have hscan := scanToken_string hbody
  rw [String.ofList_toList] at hscan
  exact scanFrom_token (by decide) (by decide) hscan

/-- Nothing. -/
theorem nil :
  Spells [] []
  := fun loc _ _ => ⟨[], loc, .nil, rfl⟩

/-- Data in brackets. -/
theorem bracket (b : Bracket) (h : Spells cs ds) :
  Spells (b.left :: (cs ++ [b.right])) [b.enclose ds]
  := by
  intro loc rest _
  have hends : Ends (b.right :: rest) := by
    rintro _ ⟨⟩
    cases b <;> decide
  have hopen : ∀ cs, scanFrom false loc (b.left :: cs) =
      ([⟨loc, .opening b⟩] ++ (scanFrom false (loc.after b.left) cs).1,
        (scanFrom false (loc.after b.left) cs).2) := by
    intro cs
    have htoken : scanToken loc b.left cs =
        .ok (.opening b, loc.after b.left, ⟨cs, Nat.le_refl _⟩) := by cases b <;> rfl
    exact scanFrom_token (by cases b <;> decide) (by cases b <;> decide) htoken
  have hclose : ∀ loc, scanFrom false loc (b.right :: rest) =
      ([⟨loc, .closing b⟩] ++ (scanFrom false (loc.after b.right) rest).1,
        (scanFrom false (loc.after b.right) rest).2) := by
    intro loc
    have htoken : scanToken loc b.right rest =
        .ok (.closing b, loc.after b.right, ⟨rest, Nat.le_refl _⟩) := by cases b <;> rfl
    exact scanFrom_token (by cases b <;> decide) (by cases b <;> decide) htoken
  obtain ⟨ls, loc', hls, hscan⟩ := h (loc.after b.left) (b.right :: rest) hends
  refine ⟨⟨loc, .opening b⟩ :: (ls ++ [⟨loc', .closing b⟩]), loc'.after b.right,
    .singleton (.sequence b loc loc' hls), ?_⟩
  rw [List.cons_append, List.append_assoc, List.singleton_append, hopen, hscan, hclose]
  simp only [List.append_assoc, List.cons_append, List.nil_append]

/-- A quoted datum. -/
theorem quote (h : Spells cs [d]) :
  Spells ('\'' :: cs) [.list [.symbol "quote", d]]
  := by
  intro loc rest hrest
  obtain ⟨ls, loc', hls, hscan⟩ := h (loc.after '\'') rest hrest
  cases hls with
  | @cons ls ls' _ _ hd hnil =>
    cases hnil
    refine ⟨⟨loc, .quote⟩ :: ls, loc', .singleton (.quote loc hd), ?_⟩
    have htoken : scanToken loc '\'' (cs ++ rest) =
        .ok (.quote, loc.after '\'', ⟨cs ++ rest, Nat.le_refl _⟩) := rfl
    rw [List.cons_append, scanFrom_token (by decide) (by decide) htoken, hscan, List.append_nil]
    rfl

/-- Data after others, with a space between them. -/
theorem spaced (h : Spells cs ds) {cs' : List Char} (h' : Spells cs' ds') :
  Spells (cs ++ ' ' :: cs') (ds ++ ds')
  := by
  intro loc rest hrest
  have hends : Ends (' ' :: (cs' ++ rest)) := by
    rintro _ ⟨⟩
    decide
  obtain ⟨ls, loc', hls, hscan⟩ := h loc _ hends
  obtain ⟨ls', loc'', hls', hscan'⟩ := h' (loc'.after ' ') rest hrest
  refine ⟨ls ++ ls', loc'', hls.append hls', ?_⟩
  rw [List.append_assoc, List.cons_append, hscan, scanFrom_separator (by decide), hscan',
    List.append_assoc]

/-- Data in a row, with a space between any two pieces. -/
theorem row {texts : List String} {dss : List (List Datum)}
    (h : List.Forall₂ (fun text ds => Spells text.toList ds) texts dss) :
  Spells (Text.spaced texts).toList dss.flatten
  := by
  induction h with
  | nil => exact nil
  | @cons text ds texts dss htext h ih =>
    cases h with
    | nil => 
      rw [Text.spaced, String.intercalate_singleton, List.flatten_singleton]
      exact htext
    | cons h h' =>
      rw [Text.spaced, String.intercalate_cons_cons, String.toList_append, String.toList_append,
        List.append_assoc]
      exact spaced htext ih

/-- The tokens of a text that spells data, when it does not start with an interpreter line. -/
theorem tokens (h : Spells cs ds) (hline : hasInterpreterLine cs = false) :
  ∃ ls, Forms ls ds ∧ ∀ t, Source.tokens (String.ofList cs) t = .ok ls t
  := by
  obtain ⟨ls, loc', hls, hscan⟩ := h .start [] nofun
  refine ⟨ls, hls, fun t => ?_⟩
  rw [List.append_nil, scanFrom_nil, List.append_nil] at hscan
  have hdrop : dropInterpreterLine cs = cs := by
    rw [dropInterpreterLine, hline, if_neg Bool.false_ne_true]
  unfold Source.tokens
  rw [String.toList_ofList, hdrop, scan, String.toList_ofList, hline, hscan]
  rfl

/-- A text that spells data is read to these data, and numbers symbols of them. -/
theorem readAll (h : Spells cs ds) (hline : hasInterpreterLine cs = false) :
  ∃ names : List Symbol, (∀ x ∈ names, ∃ d ∈ ds, d.Mentions x) ∧
    ∀ t, Source.readAll (String.ofList cs) t = .ok ds (t.insertAll names)
  := by
  obtain ⟨ls, hls, htokens⟩ := h.tokens hline
  obtain ⟨names, hnames, hparse⟩ := hls.parse_all
  exact ⟨names, hnames, fun t => (bind_ok (htokens t) _).trans (hparse t)⟩

/-- The first form of a text that spells one datum is that datum. -/
theorem readOne (h : Spells cs [d]) (hline : hasInterpreterLine cs = false) :
  ∃ names : List Symbol, (∀ x ∈ names, d.Mentions x) ∧
    ∀ t, Source.readOne (String.ofList cs) t = .ok d (t.insertAll names)
  := by
  obtain ⟨ls, hls, htokens⟩ := h.tokens hline
  cases hls with
  | @cons ls ls' _ _ hd hnil =>
    cases hnil
    obtain ⟨names, hnames, hreads⟩ := hd.reads parseOne_oneByOne
    exact ⟨names, hnames, fun t => (bind_ok (htokens t) _).trans (hreads [] [] t)⟩

end Spells

/-- Symbols that have numbers keep them. -/
theorem insertAll_eq_self {t : SymbolTable} {names : List Symbol}
    (h : ∀ x ∈ names, t.has x = true) :
  t.insertAll names = t
  := by
  induction names with
  | nil => rfl
  | cons x names ih =>
    obtain ⟨hx, hnames⟩ := List.forall_mem_cons.1 h
    have hinsert : t.insert x = t := by
      obtain ⟨n, hn⟩ := Option.isSome_iff_exists.1 hx
      rw [SymbolTable.insert, SymbolTable.intern, hn]
    rw [SymbolTable.insertAll, List.foldl_cons, hinsert]
    exact ih hnames

end Skein.Source
