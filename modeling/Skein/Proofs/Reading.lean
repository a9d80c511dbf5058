import Skein.Proofs.Grammar

/-!
# The reader accepts its grammar

Reading goes well exactly for the sequences of forms.  What has been read of a text is, at any
time, a start of such a sequence: forms, and brackets and quote marks that are still open, each
bracket with forms behind it.  So reading fails at the first token that no sequence of forms goes
on with, which can only be a closing bracket, or at the end, when something is still open.
-/

namespace Skein.Source

variable {ls ls' rest : List Lexeme} {l : Lexeme} {d : Datum} {ds ds' : List Datum}
  {b : Bracket} {open_ : List Pending} {e : ReadError}

/-! ### Faults -/

/-- Some tokens are the start of a sequence of forms. -/
def Viable (ls : List Lexeme) : Prop := ∃ rest ds, Forms (ls ++ rest) ds

/-- Why a closing bracket may not stand behind some tokens: it closes nothing, or it closes a
bracket of the other kind, or it stands right behind a quote mark. -/
inductive Misplaced (b : Bracket) : List Lexeme → Prop where
  | nothing {ls : List Lexeme} {ds : List Datum} (h : Forms ls ds) : Misplaced b ls
  | kind {b' : Bracket} (hb : b' ≠ b) (before : List Lexeme) (loc : Location)
    {inner : List Lexeme} {items : List Datum} (h : Forms inner items) :
    Misplaced b (before ++ ⟨loc, .opening b'⟩ :: inner)
  | quoted (before : List Lexeme) (loc : Location) : Misplaced b (before ++ [⟨loc, .quote⟩])

/-- The error when some tokens are all there are: the bracket that was opened last and is still
open is unterminated, or a quote mark at the end quotes nothing. -/
inductive Unfinished : List Lexeme → ReadError → Prop where
  | sequence (before : List Lexeme) (loc : Location) (b : Bracket) {inner : List Lexeme}
    {items : List Datum} (h : Forms inner items) :
    Unfinished (before ++ ⟨loc, .opening b⟩ :: inner) ⟨.unterminated b, loc⟩
  | quote (before : List Lexeme) (loc : Location) :
    Unfinished (before ++ [⟨loc, .quote⟩]) ⟨.unexpectedEnd, loc⟩

/-- The error of tokens that are no sequence of forms. -/
inductive Faulty : List Lexeme → ReadError → Prop where
  /-- The tokens before a closing bracket start a sequence of forms, but not with the bracket. -/
  | closing {before : List Lexeme} {b : Bracket} {loc : Location} (rest : List Lexeme)
    (hbefore : Viable before) (h : ¬ Viable (before ++ [⟨loc, .closing b⟩]))
    (hwhy : Misplaced b before) :
    Faulty (before ++ ⟨loc, .closing b⟩ :: rest) ⟨.unexpectedClosing b, loc⟩
  /-- All tokens start a sequence of forms. -/
  | ended {ls : List Lexeme} {e : ReadError} (h : Viable ls) (hwhy : Unfinished ls e) : Faulty ls e

/-- A start of what starts a sequence of forms. -/
theorem Viable.of_append (h : Viable (ls ++ ls')) :
  Viable ls
  := by
  obtain ⟨rest, ds, h⟩ := h
  rw [List.append_assoc] at h
  exact ⟨_, ds, h⟩

/-! ### What has been read -/

/-- The tokens that have been read, the data of the forms among them that nothing is open
around, and what is still open. -/
inductive Opened : List Lexeme → List Datum → List Pending → Prop where
  | done {ls : List Lexeme} {ds : List Datum} (h : Forms ls ds) : Opened ls ds []
  | sequence {ls inner : List Lexeme} {ds items : List Datum} {open_ : List Pending}
    (h : Opened ls ds open_) (b : Bracket) (loc : Location) (hinner : Forms inner items) :
    Opened (ls ++ ⟨loc, .opening b⟩ :: inner) ds (.sequence b loc items.reverse :: open_)
  | quote {ls : List Lexeme} {ds : List Datum} {open_ : List Pending} (h : Opened ls ds open_)
    (loc : Location) : Opened (ls ++ [⟨loc, .quote⟩]) ds (.quote loc :: open_)

/-- The tokens that have been read, and the data of the forms among them, after one more token. -/
def Progress.Of (ls : List Lexeme) (ds : List Datum) : Progress → Prop
  | .form d => Forms ls (ds ++ [d])
  | .inside open_ => Opened ls ds open_

namespace Opened

/-- A form after what has been read: what is open around it can be closed. -/
theorem viable_form (h : Opened ls ds open_) {f : List Lexeme} (hf : Form f d) :
  Viable (ls ++ f)
  := by
  induction h generalizing f d with
  | @done ls ds h =>
    refine ⟨[], ds ++ [d], ?_⟩
    rw [List.append_nil]
    exact h.concat hf
  | @sequence ls inner _ _ _ _ b loc hinner ih =>
    have hclosed := ih (.sequence b loc .start (hinner.concat hf))
    have heq : ls ++ ⟨loc, .opening b⟩ :: (inner ++ f ++ [⟨.start, .closing b⟩]) =
        ls ++ ⟨loc, .opening b⟩ :: inner ++ f ++ [⟨.start, .closing b⟩] := by
      simp only [List.append_assoc, List.cons_append]
    rw [heq] at hclosed
    exact hclosed.of_append
  | quote _ loc ih =>
    rw [List.append_assoc]
    exact ih (.quote loc hf)

/-- What has been read starts a sequence of forms. -/
theorem viable (h : Opened ls ds open_) :
  Viable ls
  := by
  have hnil : Form [⟨.start, .nil⟩] .nil := .atom rfl
  exact (h.viable_form hnil).of_append

/-- Settling the datum of a form that stands behind what has been read. -/
theorem settle (h : Opened ls ds open_) {f : List Lexeme} (hf : Form f d) (t : SymbolTable) :
  ∃ p t', Source.settle d open_ t = .ok p t' ∧ p.Of (ls ++ f) ds
  := by
  induction h generalizing f d t with
  | done h => exact ⟨_, t, rfl, h.concat hf⟩
  | sequence h b loc hinner _ =>
    refine ⟨_, t, rfl, ?_⟩
    have hmore := h.sequence b loc (hinner.concat hf)
    rw [List.reverse_concat] at hmore
    rw [List.append_assoc]
    exact hmore
  | quote _ loc ih =>
    rw [List.append_assoc]
    exact ih (.quote loc hf) _

/-- One more token: it is read, or it is a closing bracket that may not stand there. -/
theorem readToken (h : Opened ls ds open_) (l : Lexeme) :
  (∀ t, ∃ p t', Source.readToken open_ l t = .ok p t' ∧ p.Of (ls ++ [l]) ds) ∨
    ∃ b, l.token = .closing b ∧ Misplaced b ls ∧
      ∀ t, Source.readToken open_ l t = .error ⟨.unexpectedClosing b, l.location⟩ t
  := by
  obtain ⟨loc, token⟩ := l
  cases token with
  | opening b => exact .inl fun t => ⟨_, t, rfl, h.sequence b loc .nil⟩
  | quote => exact .inl fun t => ⟨_, t, rfl, h.quote loc⟩
  | closing b =>
    cases h with
    | done h => exact .inr ⟨b, rfl, .nothing h, fun _ => rfl⟩
    | quote _ loc' => exact .inr ⟨b, rfl, .quoted _ loc', fun _ => rfl⟩
    | @sequence ls inner _ items _ h b' loc' hinner =>
      by_cases hb : b = b'
      · subst hb
        left
        intro t
        rw [readToken_closing, if_pos rfl, List.reverse_reverse, List.append_assoc]
        exact h.settle (.sequence b loc' loc hinner) t
      · refine .inr ⟨b, rfl, .kind (Ne.symm hb) _ loc' hinner, fun t => ?_⟩
        rw [readToken_closing, if_neg hb]
        rfl
  | _ => exact .inl fun t => h.settle (.atom rfl) _

/-- When the tokens end here, what was opened last is unfinished. -/
theorem unfinished {pending : Pending} (h : Opened ls ds (pending :: open_)) :
  Unfinished ls pending.unfinished
  := by
  cases h with
  | sequence _ b loc hinner => exact .sequence _ loc b hinner
  | quote _ loc => exact .quote _ loc

end Opened

/-! ### Reading from the start -/

/-- What has been read is what reading from the start comes to. -/
theorem Opened.parse (h : Opened ls ds open_) :
  ∃ names : List Symbol, ∀ rest t,
    Source.parse [] (ls ++ rest) t = ((ds ++ ·) <$> Source.parse open_ rest) (t.insertAll names)
  := by
  induction h with
  | done h =>
    obtain ⟨names, -, hparse⟩ := h.parse
    exact ⟨names, hparse⟩
  | @sequence ls inner ds items open_ _ b loc hinner ih =>
    obtain ⟨names, hparse⟩ := ih
    obtain ⟨names', -, hreads⟩ := hinner.reads parse_oneByOne
    refine ⟨names ++ names', fun rest t => ?_⟩
    have hopen : Source.parse open_ (⟨loc, .opening b⟩ :: (inner ++ rest)) (t.insertAll names) =
        Source.parse (.sequence b loc items.reverse :: open_) rest
          ((t.insertAll names).insertAll names') := by
      have hinside := hreads b loc [] open_ rest (t.insertAll names)
      rw [List.append_nil] at hinside
      exact hinside
    rw [List.append_assoc, List.cons_append, hparse, insertAll_append]
    exact map_congr_at hopen _
  | quote _ loc ih =>
    obtain ⟨names, hparse⟩ := ih
    refine ⟨names, fun rest t => ?_⟩
    rw [List.append_assoc]
    exact hparse _ t

/-- Tokens that cannot be read after what has been read start no sequence of forms. -/
theorem Opened.not_viable (h : Opened ls ds open_)
    (hl : ∀ t, Source.readToken open_ l t = .error e t) :
  ¬ Viable (ls ++ [l])
  := by
  rintro ⟨rest, ds', hforms⟩
  obtain ⟨names, hparse⟩ := h.parse
  obtain ⟨names', -, hforms⟩ := hforms.parse_all
  have hfail : Source.parse open_ (l :: rest) (SymbolTable.empty.insertAll names) =
      .error e (SymbolTable.empty.insertAll names) := bind_error (hl _) _
  have hwhole := hforms .empty
  rw [← List.append_cons ls, hparse, map_error hfail] at hwhole
  cases hwhole

/-- How reading ends: with the data of a sequence of forms, or with an error of tokens that are
none. -/
inductive Outcome (ls : List Lexeme) (ds : List Datum) :
    EStateM.Result ReadError SymbolTable (List Datum) → Prop where
  | ok {ds' : List Datum} {t : SymbolTable} (h : Forms ls (ds ++ ds')) : Outcome ls ds (.ok ds' t)
  | error {e : ReadError} {t : SymbolTable} (h : Faulty ls e) : Outcome ls ds (.error e t)

/-- Reading on from what has been read, by induction on the tokens that are left. -/
theorem Opened.outcome (h : Opened ls ds open_) (rest : List Lexeme) (t : SymbolTable) :
  Outcome (ls ++ rest) ds (Source.parse open_ rest t)
  := by
  induction rest generalizing ls ds open_ t with
  | nil =>
    rw [List.append_nil]
    cases h with
    | done h => exact .ok ((List.append_nil ds).symm ▸ h)
    | sequence h b loc hinner =>
      have h := h.sequence b loc hinner
      exact .error (.ended h.viable h.unfinished)
    | quote h loc =>
      have h := h.quote loc
      exact .error (.ended h.viable h.unfinished)
  | cons l rest ih =>
    rcases h.readToken l with hread | ⟨b, hl, hwhy, hread⟩
    · obtain ⟨p, t', hread, hp⟩ := hread t
      have hnext : Source.parse open_ (l :: rest) t = p.next Source.parse more rest t' :=
        bind_ok hread _
      rw [hnext, List.append_cons]
      cases p with
      | inside open_ => exact ih hp t'
      | form d =>
        rw [Progress.next, more_eq]
        have hrest := ih (.done hp) t'
        cases hparse : Source.parse [] rest t' with
        | ok ds' t'' =>
          rw [hparse] at hrest
          rw [map_ok hparse]
          cases hrest with
          | ok h =>
            rw [← List.append_cons ds] at h
            exact .ok h
        | error e t'' =>
          rw [hparse] at hrest
          rw [map_error hparse]
          cases hrest with
          | error h => exact .error h
    · have hfail : Source.parse open_ (l :: rest) t = .error _ t := bind_error (hread t) _
      obtain ⟨loc, token⟩ := l
      obtain rfl : token = .closing b := hl
      rw [hfail]
      exact .error (.closing rest h.viable (h.not_viable hread) hwhy)

/-! ### The whole reader -/

/-- The reader accepts exactly its grammar.  It reads the tokens of a text to some data exactly
when the tokens are a sequence of forms that stands for these data, which are then the only ones
that it stands for.  Otherwise it fails.  If so, either it fails at a closing bracket before which
all could still become a sequence of forms, and with which it cannot: the bracket closes nothing,
or a bracket of the other kind, or follows a quote mark.  Or it fails at the end, where all could
still become a sequence of forms: the bracket that was opened last is not closed, or the last
token is a quote mark. -/
theorem parse_reads_grammar (ls : List Lexeme) (t : SymbolTable) :
  (∀ ds, (∃ t', parse [] ls t = .ok ds t') ↔ Forms ls ds) ∧
    (∀ ds ds', Forms ls ds → Forms ls ds' → ds = ds') ∧
    ((∀ ds, ¬ Forms ls ds) → ∃ e t', parse [] ls t = .error e t' ∧ Faulty ls e)
  := by
  have hparse : ∀ ds, Forms ls ds → ∃ t', parse [] ls t = .ok ds t' := by
    intro ds h
    obtain ⟨names, -, hparse⟩ := h.parse_all
    exact ⟨_, hparse t⟩
  have houtcome := (Opened.done .nil).outcome ls t
  refine ⟨fun ds => ⟨?_, hparse ds⟩, fun ds ds' h h' => ?_, fun h => ?_⟩
  · rintro ⟨t', ht'⟩
    rw [ht'] at houtcome
    cases houtcome with
    | ok h => exact h
  · obtain ⟨_, h⟩ := hparse ds h
    obtain ⟨_, h'⟩ := hparse ds' h'
    rw [h] at h'
    cases h'
    rfl
  · cases hread : parse [] ls t with
    | ok ds t' =>
      rw [hread] at houtcome
      cases houtcome with
      | ok hforms => exact absurd hforms (h ds)
    | error e t' =>
      rw [hread] at houtcome
      cases houtcome with
      | error hfaulty => exact ⟨e, t', rfl, hfaulty⟩

end Skein.Source
