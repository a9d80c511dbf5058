import Mathlib
import Skein.Proofs.Lexing

/-!
# Texts one below the other

A text that can be read, a line break, and another text are read like the two texts one after the
other.  No token and no gap goes on over the line break, since the first text has no fault: a word
ends there and so does a comment, and its last string is closed.  So the tokens are those of the
first text and then those of the second one, which are further down by the lines of the first.

Reading tokens that are further down differs in the place of an error only, and what comes of
reading does not depend on the symbols that are numbered already.
-/

namespace Skein.Source

variable {gap rest spelling cs before : List Char} {token : Token} {lexemes : List Lexeme}
  {error : Option ReadError} {n : Nat}

/-! ### Over a line break -/

/-- A gap before something is a gap before anything else. -/
theorem Gap.elsewhere (h : Gap gap rest) (hrest : rest ≠ []) (rest' : List Char) :
  Gap gap rest'
  := by
  induction h with
  | nil => exact .nil rest'
  | separator hc _ ih => exact .separator hc (ih hrest)
  | comment hline _ ih => exact .comment hline (ih hrest)
  | lastComment => exact absurd rfl hrest

/-- A gap that ends a text goes on with a gap below it. -/
theorem Gap.above {gap' : List Char} (h : Gap gap []) (h' : Gap gap' rest) :
  Gap (gap ++ '\n' :: gap') rest
  := by
  generalize hend : ([] : List Char) = last at h
  induction h with
  | nil => exact .separator (by decide) h'
  | separator hc _ ih => exact .separator hc (ih hend)
  | comment hline _ ih =>
    rw [List.cons_append, List.append_assoc, List.cons_append]
    exact .comment hline (ih hend)
  | lastComment hline => exact .comment hline h'

/-- What ends a run still ends it with something below. -/
theorem Ends.above (h : Ends cs) (below : List Char) :
  Ends (cs ++ '\n' :: below)
  := by
  cases cs with
  | nil =>
    rintro _ ⟨⟩
    decide
  | cons c cs => exact h

/-- A spelling is one with something below as well. -/
theorem Token.Spelled.above (h : token.Spelled before rest spelling) (below : List Char) :
  token.Spelled before (rest ++ '\n' :: below) spelling
  := by
  cases h with
  | opening b => exact .opening b
  | closing b => exact .closing b
  | quote => exact .quote
  | string hs => exact .string hs
  | word hrun h => exact .word ⟨hrun.chars, hrun.starts, hrun.ends.above below⟩ h

/-- A division without a fault goes on, over a line break, with a division of what is below. -/
theorem Lexed.above {below : List Char} {lexemes' : List Lexeme} (h : Lexed before cs lexemes none)
    (h' : Lexed (before ++ cs ++ ['\n']) below lexemes' error) :
  Lexed before (cs ++ '\n' :: below) (lexemes ++ lexemes') error
  := by
  generalize hnone : none = end_ at h
  induction h with
  | @ended before gap hgap =>
    have hplace : ∀ gap', before ++ gap ++ ['\n'] ++ gap' = before ++ (gap ++ '\n' :: gap') := by
      intro gap'
      simp only [List.append_assoc, List.singleton_append]
    have hsplit : ∀ gap' rest : List Char,
        gap ++ '\n' :: (gap' ++ rest) = gap ++ '\n' :: gap' ++ rest := by
      intro gap' rest
      rw [List.append_assoc, List.cons_append]
    cases h' with
    | ended hgap' => exact .ended (hgap.above hgap')
    | token hgap' htoken h =>
      rw [hplace] at htoken h ⊢
      rw [hsplit]
      exact .token (hgap.above hgap') htoken h
    | fault hgap' hfault =>
      rw [hplace] at hfault ⊢
      rw [hsplit]
      exact .fault (hgap.above hgap') hfault
  | @token before gap spelling rest token lexemes _ hgap htoken _ ih =>
    have hspelling : spelling ≠ [] := by
      obtain ⟨c, cs, rfl, -⟩ := htoken.starts
      exact List.cons_ne_nil c cs
    have hgap' := hgap.elsewhere (List.append_ne_nil_of_left_ne_nil hspelling rest)
    have hrest := ih (by simpa only [List.append_assoc] using h') hnone
    rw [List.append_assoc, List.append_assoc, List.cons_append]
    exact .token (hgap' _) (htoken.above below) hrest
  | fault => cases hnone

/-! ### Further down -/

/-- A place some lines further down. -/
def Location.below (n : Nat) (loc : Location) : Location := ⟨loc.line + n, loc.column⟩

/-- A token some lines further down. -/
def Lexeme.below (n : Nat) (l : Lexeme) : Lexeme := ⟨l.location.below n, l.token⟩

/-- An error some lines further down. -/
def ReadError.below (n : Nat) (e : ReadError) : ReadError := ⟨e.fault, e.location.below n⟩

/-- The place behind some characters is as far down as the place before them. -/
theorem Location.below_afterAll (loc : Location) (cs : List Char) :
  (loc.below n).afterAll cs = (loc.afterAll cs).below n
  := by
  induction cs generalizing loc with
  | nil => rfl
  | cons c cs ih =>
    have hafter : (loc.below n).after c = (loc.after c).below n := by
      unfold after below
      split_ifs
      · simp only [Nat.add_right_comm]
      · rfl
    rw [afterAll_cons, hafter, ih, afterAll_cons]

/-- Places below some lines are further down by as many lines. -/
theorem Location.behind_below (lines before : List Char) :
  behind (lines ++ '\n' :: before) = (behind before).below (lines.count '\n' + 1)
  := by
  have hbreak : behind (lines ++ ['\n']) = start.below (lines.count '\n' + 1) := by
    rw [behind_concat, after, if_pos rfl, behind, below, start, Nat.add_assoc]
  have hbefore : behind before = start.afterAll before := behind_append [] before
  rw [List.append_cons, behind_append, hbreak, below_afterAll, hbefore]

/-- What ends the characters before a place still ends them when there are lines above. -/
theorem forall_getLast?_below {P : Char → Prop} (hbreak : P '\n') (lines : List Char)
    (h : ∀ c ∈ before.getLast?, P c) :
  ∀ c ∈ (lines ++ '\n' :: before).getLast?, P c
  := by
  cases before with
  | nil =>
    rw [List.getLast?_concat]
    rintro _ ⟨⟩
    exact hbreak
  | cons c before =>
    rw [List.getLast?_append, List.getLast?_cons_cons, List.getLast?_cons, Option.some_or]
    rw [List.getLast?_cons] at h
    exact h

/-- A run below some lines is a run. -/
theorem IsRun.moved_down {run : List Char} (h : IsRun before run rest) (lines : List Char) :
  IsRun (lines ++ '\n' :: before) run rest
  := ⟨h.chars, forall_getLast?_below (by decide) lines h.starts, h.ends⟩

/-- A division is one below some lines as well, with the same tokens further down. -/
theorem Lexed.moved_down (h : Lexed before cs lexemes error) (lines : List Char) :
  Lexed (lines ++ '\n' :: before) cs (lexemes.map (·.below (lines.count '\n' + 1)))
    (error.map (·.below (lines.count '\n' + 1)))
  := by
  have hplace : ∀ before cs : List Char,
      lines ++ '\n' :: before ++ cs = lines ++ '\n' :: (before ++ cs) := by
    intro before cs
    rw [List.append_assoc, List.cons_append]
  induction h with
  | ended hgap => exact .ended hgap
  | @token before gap spelling rest token lexemes error hgap htoken _ ih =>
    have htoken' : token.Spelled (lines ++ '\n' :: before ++ gap) rest spelling := by
      rw [hplace]
      cases htoken with
      | opening b => exact .opening b
      | closing b => exact .closing b
      | quote => exact .quote
      | string hs => exact .string hs
      | word hrun h => exact .word (hrun.moved_down lines) h
    rw [← hplace, ← hplace] at ih
    have hlexed := Lexed.token hgap htoken' ih
    rw [hplace, Location.behind_below] at hlexed
    exact hlexed
  | @fault before gap rest fault hgap hfault =>
    have hfault' : Misspelled (lines ++ '\n' :: before ++ gap) rest fault := by
      rw [hplace]
      cases hfault with
      | word hrun h => exact .word (hrun.moved_down lines) h
      | string hs => exact .string hs
      | escape hs => exact .escape hs
    have hlexed := Lexed.fault hgap hfault'
    rw [hplace, Location.behind_below] at hlexed
    exact hlexed

/-! ### Reading further down -/

/-- Something open some lines further down. -/
def Pending.below (n : Nat) : Pending → Pending
  | .sequence b loc items => .sequence b (loc.below n) items
  | .quote loc => .quote (loc.below n)

/-- What has been read some lines further down. -/
def Progress.below (n : Nat) : Progress → Progress
  | .form d => .form d
  | .inside open_ => .inside (open_.map (·.below n))

/-- What comes of reading some lines further down: an error is further down, and a result is
what `f` makes of it. -/
def moved {α β : Type} (n : Nat) (f : α → β) :
    EStateM.Result ReadError SymbolTable α → EStateM.Result ReadError SymbolTable β
  | .ok a t => .ok (f a) t
  | .error e t => .error (e.below n) t

/-- Reading one thing after another, both further down. -/
theorem bind_moved {α β γ δ : Type} {act : Reading α} {act' : Reading β} {f : α → β}
    {k : α → Reading γ} {k' : β → Reading δ} {g : γ → δ} {t : SymbolTable}
    (h : act' t = moved n f (act t)) (hk : ∀ a t, k' (f a) t = moved n g (k a t)) :
  (act' >>= k') t = moved n g ((act >>= k) t)
  := by
  cases hact : act t with
  | ok a t' =>
    rw [hact] at h
    rw [bind_ok h, bind_ok hact, hk]
  | error e t' =>
    rw [hact] at h
    rw [bind_error h, bind_error hact]
    rfl

/-- A datum is put where it belongs. -/
theorem settle_below (d : Datum) (open_ : List Pending) (t : SymbolTable) :
  settle d (open_.map (·.below n)) t = moved n (·.below n) (settle d open_ t)
  := by
  induction open_ generalizing d t with
  | nil => rfl
  | cons pending open_ ih =>
    cases pending with
    | sequence => rfl
    | quote => exact ih _ _

/-- A token further down is read like the token. -/
theorem readToken_below (open_ : List Pending) (l : Lexeme) (t : SymbolTable) :
  readToken (open_.map (·.below n)) (l.below n) t = moved n (·.below n) (readToken open_ l t)
  := by
  obtain ⟨loc, token⟩ := l
  cases token with
  | opening | quote => rfl
  | closing b =>
    match open_ with
    | [] | .quote _ :: _ => rfl
    | .sequence b' _ items :: open_ =>
      change readToken (.sequence b' _ items :: open_.map (·.below n)) ⟨_, .closing b⟩ t = _
      rw [readToken_closing, readToken_closing]
      split_ifs
      · exact settle_below _ open_ t
      · rfl
  | symbol => exact settle_below _ open_ _
  | _ => exact settle_below _ open_ t

/-- Tokens further down are read to the same data, or to the same error further down. -/
theorem parse_below (open_ : List Pending) (ls : List Lexeme) (t : SymbolTable) :
  parse (open_.map (·.below n)) (ls.map (·.below n)) t = moved n id (parse open_ ls t)
  := by
  induction ls generalizing open_ t with
  | nil =>
    match open_ with
    | [] | .sequence _ _ _ :: _ | .quote _ :: _ => rfl
  | cons l ls ih =>
    rw [List.map_cons, parse_oneByOne, parse_oneByOne]
    refine bind_moved (readToken_below open_ l t) fun progress t => ?_
    cases progress with
    | form d =>
      change more d _ t = moved n id (more d ls t)
      have hrest : parse [] (ls.map (·.below n)) t = moved n id (parse [] ls t) := ih [] t
      rw [more_eq, more_eq]
      cases hparse : parse [] ls t with
      | ok ds t' =>
        rw [hparse] at hrest
        rw [map_ok hrest, map_ok hparse]
        rfl
      | error e t' =>
        rw [hparse] at hrest
        rw [map_error hrest, map_error hparse]
        rfl
    | inside open_ => exact ih open_ t

/-! ### Reading after forms -/

/-- Tokens that come after those of whole forms are read after them. -/
theorem parse_append {open_ : List Pending} {ls : List Lexeme} {ds : List Datum}
    {t t' : SymbolTable} (h : parse open_ ls t = .ok ds t') (ls' : List Lexeme) :
  parse open_ (ls ++ ls') t = ((ds ++ ·) <$> parse [] ls') t'
  := by
  induction ls generalizing open_ ds t with
  | nil =>
    cases open_ with
    | nil =>
      cases h
      exact congrFun (id_map _).symm _
    | cons pending open_ => cases h
  | cons l ls ih =>
    rw [List.cons_append, parse_oneByOne]
    rw [parse_oneByOne] at h
    cases hread : readToken open_ l t with
    | error e u =>
      rw [bind_error hread] at h
      cases h
    | ok progress u =>
      rw [bind_ok hread] at h
      rw [bind_ok hread]
      cases progress with
      | form d =>
        change more d ls u = _ at h
        change more d (ls ++ ls') u = _
        rw [more_eq] at h ⊢
        cases hparse : parse [] ls u with
        | error e v =>
          rw [map_error hparse] at h
          cases h
        | ok es v =>
          rw [map_ok hparse] at h
          cases h
          rw [map_congr_at (ih hparse), Functor.map_map]
          rfl
      | inside open_ => exact ih h

/-! ### Numbered symbols -/

/-- A reading comes to the same with any symbols numbered before it. -/
def Uniform {α : Type} (act : Reading α) : Prop :=
  ∃ result : Except ReadError α, ∀ t, ∃ t',
    act t = match result with
      | .ok a => .ok a t'
      | .error e => .error e t'

namespace Uniform

variable {α β : Type} {act : Reading α}

/-- A result. -/
theorem pure (a : α) :
  Uniform (pure a)
  := ⟨.ok a, fun t => ⟨t, rfl⟩⟩

/-- An error. -/
theorem throw (e : ReadError) :
  Uniform (throw e : Reading α)
  := ⟨.error e, fun t => ⟨t, rfl⟩⟩

/-- One reading after another. -/
theorem bind {k : α → Reading β} (h : Uniform act) (hk : ∀ a, Uniform (k a)) :
  Uniform (act >>= k)
  := by
  obtain ⟨result, hact⟩ := h
  cases result with
  | error e =>
    refine ⟨.error e, fun t => ?_⟩
    obtain ⟨t', ht⟩ := hact t
    exact ⟨t', bind_error ht k⟩
  | ok a =>
    obtain ⟨result, hrest⟩ := hk a
    refine ⟨result, fun t => ?_⟩
    obtain ⟨t', ht⟩ := hact t
    rw [bind_ok ht]
    exact hrest t'

/-- Numbering a symbol. -/
theorem intern (name : Symbol) :
  Uniform (intern name)
  := ⟨.ok (), fun t => ⟨t.insert name, rfl⟩⟩

/-- Putting a datum where it belongs. -/
theorem settle (d : Datum) (open_ : List Pending) :
  Uniform (settle d open_)
  := by
  induction open_ generalizing d with
  | nil => exact pure _
  | cons pending open_ ih =>
    cases pending with
    | sequence => exact pure _
    | quote => exact (intern "quote").bind fun _ => ih _

/-- Reading a token. -/
theorem readToken (open_ : List Pending) (l : Lexeme) :
  Uniform (readToken open_ l)
  := by
  obtain ⟨loc, token⟩ := l
  cases token with
  | opening | quote => exact pure _
  | closing b =>
    match open_ with
    | [] | .quote _ :: _ => exact throw _
    | .sequence b' _ items :: open_ =>
      rw [readToken_closing]
      split_ifs
      · exact settle _ open_
      · exact throw _
  | symbol name => exact (intern name).bind fun _ => settle _ open_
  | _ => exact settle _ open_

/-- Reading tokens. -/
theorem parse (open_ : List Pending) (ls : List Lexeme) :
  Uniform (parse open_ ls)
  := by
  induction ls generalizing open_ with
  | nil =>
    cases open_ with
    | nil => exact pure _
    | cons => exact throw _
  | cons l ls ih =>
    refine (readToken open_ l).bind fun progress => ?_
    cases progress with
    | form d => exact (ih []).bind fun _ => pure _
    | inside open_ => exact ih open_

/-- Reading a text. -/
theorem readAll (source : String) :
  Uniform (readAll source)
  := by
  refine bind ?_ (parse [])
  unfold tokens
  split
  · exact pure _
  · exact throw _

/-- What is read with some symbols numbered is read with others. -/
theorem ok_iff (h : Uniform act) (a : α) (t t' : SymbolTable) :
  (∃ u, act t = .ok a u) ↔ ∃ u, act t' = .ok a u
  := by
  obtain ⟨result, hact⟩ := h
  obtain ⟨u, hu⟩ := hact t
  obtain ⟨u', hu'⟩ := hact t'
  cases result <;> simp [hu, hu']

end Uniform

/-! ### Two texts -/

variable {a b : String} {t t₁ : SymbolTable}

/-- The tokens of a text come from a division of it. -/
theorem tokens_of_lexed
    (h : Lexed (interpreterLine a.toList) (dropInterpreterLine a.toList) lexemes error)
    (t : SymbolTable) :
  tokens a t = error.elim (.ok lexemes t) (.error · t)
  := by
  have hline : hasInterpreterLine (dropInterpreterLine a.toList) = false := by
    cases hline : hasInterpreterLine a.toList with
    | false => rw [dropInterpreterLine, hline, if_neg Bool.false_ne_true, hline]
    | true => rcases dropInterpreterLine_eq hline with hdrop | ⟨rest, hdrop⟩ <;> rw [hdrop] <;> rfl
  have hscan : Source.scan (String.ofList (dropInterpreterLine a.toList)) = (lexemes, error) := by
    rw [Source.scan, String.toList_ofList, hline, (scanFrom_dropInterpreterLine a.toList).2, h.scan]
  unfold Source.tokens
  rw [hscan]
  cases error <;> rfl

/-- A line break ends a line, whatever is below. -/
theorem takeWhile_above (as bs : List Char) :
  (as ++ '\n' :: bs).takeWhile (· ≠ '\n') = as.takeWhile (· ≠ '\n') ∧
    (as ++ '\n' :: bs).dropWhile (· ≠ '\n') = as.dropWhile (· ≠ '\n') ++ '\n' :: bs
  := by
  induction as with
  | nil => exact ⟨rfl, rfl⟩
  | cons c as ih =>
    obtain ⟨htake, hdrop⟩ := ih
    rw [List.cons_append, List.takeWhile_cons, List.takeWhile_cons, List.dropWhile_cons,
      List.dropWhile_cons, htake, hdrop]
    split_ifs <;> exact ⟨rfl, rfl⟩

/-- A text with something below has the interpreter line that it has. -/
theorem interpreterLine_above (as bs : List Char) :
  interpreterLine (as ++ '\n' :: bs) = interpreterLine as ∧
    dropInterpreterLine (as ++ '\n' :: bs) = dropInterpreterLine as ++ '\n' :: bs
  := by
  have hline : hasInterpreterLine (as ++ '\n' :: bs) = hasInterpreterLine as := by
    match as with
    | [] => rfl
    | [c] =>
      unfold hasInterpreterLine
      split <;> simp_all
    | c :: d :: as =>
      unfold hasInterpreterLine
      split <;> split <;> simp_all
  unfold interpreterLine dropInterpreterLine
  rw [hline]
  split_ifs
  · exact takeWhile_above as bs
  · exact ⟨rfl, rfl⟩

/-- The tokens of a text that can be divided, and of one below it, are those of the first, and
those of the second further down. -/
theorem tokens_above {bs : List Lexeme}
    (ha : Lexed (interpreterLine a.toList) (dropInterpreterLine a.toList) lexemes none)
    (hb : Lexed [] b.toList bs error) (t : SymbolTable) :
  tokens (a ++ "\n" ++ b) t =
    (error.map (·.below (a.toList.count '\n' + 1))).elim
      (.ok (lexemes ++ bs.map (·.below (a.toList.count '\n' + 1))) t) (.error · t)
  := by
  have htext : (a ++ "\n" ++ b).toList = a.toList ++ '\n' :: b.toList := by
    rw [String.toList_append, String.toList_append, List.append_assoc]
    rfl
  obtain ⟨hline, hdrop⟩ := interpreterLine_above a.toList b.toList
  have hbelow := hb.moved_down a.toList
  refine tokens_of_lexed ?_ t
  rw [htext, hline, hdrop]
  refine ha.above ?_
  rw [interpreterLine_append]
  exact hbelow

/-- A text that can be read and one below it are read one after the other, unless the second one
has a fault that ends its tokens: nothing is numbered then. -/
theorem readAll_above_eq {ds : List Datum} (ha : readAll a t = .ok ds t₁)
    (hb : hasInterpreterLine b.toList = false) :
  readAll (a ++ "\n" ++ b) t = moved (a.toList.count '\n' + 1) (ds ++ ·) (readAll b t₁) ∨
    ∃ e, readAll (a ++ "\n" ++ b) t = .error (e.below (a.toList.count '\n' + 1)) t ∧
      ∀ t', readAll b t' = .error e t'
  := by
  obtain ⟨as, fault, ha'⟩ := (fresh_dropInterpreterLine a.toList).exists_lexed
  have hline : interpreterLine b.toList = [] ∧ dropInterpreterLine b.toList = b.toList := by
    rw [interpreterLine, dropInterpreterLine, hb]
    exact ⟨rfl, rfl⟩
  obtain ⟨bs, error, hb'⟩ := (fresh_dropInterpreterLine b.toList).exists_lexed
  have htokens := tokens_of_lexed hb'
  rw [hline.1, hline.2] at hb'
  cases fault with
  | some e =>
    rw [readAll, bind_error (tokens_of_lexed ha' t)] at ha
    cases ha
  | none =>
    rw [readAll, bind_ok (tokens_of_lexed ha' t)] at ha
    have hboth := tokens_above ha' hb' t
    cases error with
    | some e =>
      refine .inr ⟨e, bind_error hboth _, fun t' => ?_⟩
      exact bind_error (htokens t') _
    | none =>
      refine .inl ?_
      have hbelow := parse_below (n := a.toList.count '\n' + 1) [] bs t₁
      rw [readAll, readAll, bind_ok hboth, bind_ok (htokens t₁), parse_append ha]
      cases hparse : parse [] bs t₁ with
      | ok es t₂ =>
        rw [hparse] at hbelow
        exact map_ok hbelow _
      | error e t₂ =>
        rw [hparse] at hbelow
        exact map_error hbelow _

/-- Reading is compositional.  When a text can be read, and another one does not start with an
interpreter line, the two with a line break between them can be read exactly when the second one
can, whichever symbols are numbered.  The forms are then those of the first text and those of the
second, which are the same whichever symbols are numbered, and the symbols are numbered as when the
second is read after the first.  An error of the second is the same error, further down by the
lines of the first. -/
theorem readAll_above {ds : List Datum} (ha : readAll a t = .ok ds t₁)
    (hb : hasInterpreterLine b.toList = false) :
  (∀ t', (∃ fs t₂, readAll (a ++ "\n" ++ b) t' = .ok fs t₂) ↔
    ∃ es t₂, readAll b t' = .ok es t₂) ∧
  (∀ es t₂, readAll b t₁ = .ok es t₂ ↔ readAll (a ++ "\n" ++ b) t = .ok (ds ++ es) t₂) ∧
  (∀ es t' t'', (∃ t₂, readAll b t' = .ok es t₂) ↔ ∃ t₂, readAll b t'' = .ok es t₂) ∧
  ∀ e, (∃ t₂, readAll b t₁ = .error e t₂) →
    ∃ t₂, readAll (a ++ "\n" ++ b) t = .error (e.below (a.toList.count '\n' + 1)) t₂
  := by
  refine ⟨fun t' => ?_, fun es t₂ => ?_, fun es => (Uniform.readAll b).ok_iff es, fun e => ?_⟩
  · obtain ⟨t₁', ha'⟩ := ((Uniform.readAll a).ok_iff ds t t').1 ⟨t₁, ha⟩
    have hafter : (∃ es t₂, readAll b t' = .ok es t₂) ↔ ∃ es t₂, readAll b t₁' = .ok es t₂ :=
      exists_congr fun es => (Uniform.readAll b).ok_iff es t' t₁'
    rw [hafter]
    rcases readAll_above_eq ha' hb with h | ⟨e, h, hfault⟩
    · rw [h]
      cases readAll b t₁' <;> simp [moved]
    · rw [h, hfault]
      simp
  · rcases readAll_above_eq ha hb with h | ⟨e, h, hfault⟩
    · rw [h]
      cases readAll b t₁ <;> simp [moved]
    · rw [h, hfault]
      simp
  · rintro ⟨t₂, he⟩
    rcases readAll_above_eq ha hb with h | ⟨e', h, hfault⟩
    · rw [he] at h
      exact ⟨t₂, h⟩
    · rw [hfault] at he
      cases he
      exact ⟨t, h⟩

/-- A text with an interpreter line and a comment at its end is read before the text below it, and
an error of the text below is found two lines further down. -/
theorem readAll_above_comment :
  readAll "#!x\n(f) ; y\ng h" .empty =
      .ok [.list [.symbol "f"], .symbol "g", .symbol "h"]
        (((SymbolTable.empty.insert "f").insert "g").insert "h") ∧
    ∃ t₂, readAll "#!x\n(f) ; y\n(g" .empty = .error ⟨.unterminated .round, ⟨3, 1⟩⟩ t₂
  := by
  have ha : readAll "#!x\n(f) ; y" .empty =
      .ok [.list [.symbol "f"]] (SymbolTable.empty.insert "f") := by cbv
  have hb : readAll "g h" (SymbolTable.empty.insert "f") = .ok [.symbol "g", .symbol "h"]
      (((SymbolTable.empty.insert "f").insert "g").insert "h") := by cbv
  have hc : readAll "(g" (SymbolTable.empty.insert "f") = .error ⟨.unterminated .round, ⟨1, 1⟩⟩
      ((SymbolTable.empty.insert "f").insert "g") := by cbv
  obtain ⟨-, hforms, -, -⟩ := readAll_above (b := "g h") ha (by decide)
  obtain ⟨-, -, -, herror⟩ := readAll_above (b := "(g") ha (by decide)
  exact ⟨(hforms _ _).1 hb, herror _ ⟨_, hc⟩⟩

end Skein.Source
