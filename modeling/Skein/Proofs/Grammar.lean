import Skein.Source.Read

/-!
# The grammar of data

A form is an atom, a bracketed sequence of forms, or a quote mark before a form, which is read
as a list that starts with `quote`.  Reading the tokens of a form, whatever is still open and
whatever comes after them, settles the datum of the form where the form started.  This holds of
every way to read tokens one by one, so of reading all forms and of reading the first one.

Reading numbers symbols of the datum and no others.
-/

namespace Skein

/-- A symbol is part of a datum. -/
inductive Datum.Mentions (x : Symbol) : Datum → Prop where
  | symbol : Mentions x (.symbol x)
  | list {items : List Datum} {d : Datum} (h : d ∈ items) (hd : Mentions x d) :
    Mentions x (.list items)
  | vector {items : List Datum} {d : Datum} (h : d ∈ items) (hd : Mentions x d) :
    Mentions x (.vector items)

namespace Source

/-- The datum that a token is by itself. -/
def Token.datum? : Token → Option Datum
  | .symbol name => some (.symbol name)
  | .keyword name => some (.scalar (.keyword name))
  | .int n => some (.scalar (.int n))
  | .float x => some (.scalar (.float x))
  | .string s => some (.scalar (.string s))
  | .bool b => some (.scalar (.bool b))
  | .nil => some .nil
  | .opening _ | .closing _ | .quote => none

/-! ### The grammar -/

mutual

/-- The tokens of a form, wherever they stand, and its datum. -/
inductive Form : List Lexeme → Datum → Prop where
  | atom {loc : Location} {token : Token} {d : Datum} (h : token.datum? = some d) :
    Form [⟨loc, token⟩] d
  | sequence (b : Bracket) (loc loc' : Location) {ls : List Lexeme} {items : List Datum}
    (h : Forms ls items) :
    Form (⟨loc, .opening b⟩ :: (ls ++ [⟨loc', .closing b⟩])) (b.enclose items)
  | quote (loc : Location) {ls : List Lexeme} {d : Datum} (h : Form ls d) :
    Form (⟨loc, .quote⟩ :: ls) (.list [.symbol "quote", d])

/-- The tokens of some forms, one after the other, and their data. -/
inductive Forms : List Lexeme → List Datum → Prop where
  | nil : Forms [] []
  | cons {ls ls' : List Lexeme} {d : Datum} {ds : List Datum} (h : Form ls d)
    (hs : Forms ls' ds) : Forms (ls ++ ls') (d :: ds)

end

variable {ls ls' : List Lexeme} {d : Datum} {ds ds' : List Datum}

/-- A form has tokens. -/
theorem Form.length_pos (h : Form ls d) :
  0 < ls.length
  := by
  cases h <;> exact Nat.succ_pos _

/-- One form. -/
theorem Forms.singleton (h : Form ls d) :
  Forms ls [d]
  := by
  have hcons := Forms.cons h .nil
  rw [List.append_nil] at hcons
  exact hcons

/-- Some forms after others. -/
theorem Forms.append (h : Forms ls ds) (h' : Forms ls' ds') :
  Forms (ls ++ ls') (ds ++ ds')
  := by
  induction ds generalizing ls with
  | nil =>
    cases h
    exact h'
  | cons d ds ih =>
    cases h with
    | cons h hs =>
      rw [List.append_assoc]
      exact .cons h (ih hs)

/-- A form after others. -/
theorem Forms.concat (h : Forms ls ds) (h' : Form ls' d) :
  Forms (ls ++ ls') (ds ++ [d])
  := h.append (.singleton h')

/-! ### Reading forms -/

/-- What is done after a token: `finish` when a form is finished that nothing is open around,
and otherwise more is read. -/
def Progress.next {α : Type} (read : List Pending → List Lexeme → Reading α)
    (finish : Datum → List Lexeme → Reading α) (lexemes : List Lexeme) : Progress → Reading α
  | .form d => finish d lexemes
  | .inside open_ => read open_ lexemes

/-- A way to read tokens one by one. -/
def ReadsOneByOne {α : Type} (read : List Pending → List Lexeme → Reading α)
    (finish : Datum → List Lexeme → Reading α) : Prop :=
  ∀ open_ lexeme lexemes,
    read open_ (lexeme :: lexemes) = readToken open_ lexeme >>= (·.next read finish lexemes)

/-- Add a form to those that are read after it. -/
def more (d : Datum) (lexemes : List Lexeme) : Reading (List Datum) :=
  return d :: (← parse [] lexemes)

/-- All forms are read one by one. -/
theorem parse_oneByOne :
  ReadsOneByOne parse more
  := fun _ _ _ => rfl

/-- The first form is read one by one. -/
theorem parseOne_oneByOne :
  ReadsOneByOne parseOne fun d _ => return d
  := fun _ _ _ => rfl

/-- What comes after the same result is the same. -/
theorem bind_congr_at {α β : Type} {act act' : Reading α} {t t' : SymbolTable}
    (h : act t = act' t') (k : α → Reading β) :
  (act >>= k) t = (act' >>= k) t'
  := by
  change EStateM.bind act k t = EStateM.bind act' k t'
  unfold EStateM.bind
  rw [h]

/-- What comes after a result. -/
theorem bind_ok {α β : Type} {act : Reading α} {t t' : SymbolTable} {a : α}
    (h : act t = .ok a t') (k : α → Reading β) :
  (act >>= k) t = k a t'
  := by
  change EStateM.bind act k t = _
  rw [EStateM.bind, h]

/-- Nothing comes after an error. -/
theorem bind_error {α β : Type} {act : Reading α} {t t' : SymbolTable} {e : ReadError}
    (h : act t = .error e t') (k : α → Reading β) :
  (act >>= k) t = .error e t'
  := by
  change EStateM.bind act k t = _
  rw [EStateM.bind, h]

/-- Numbering some symbols after others. -/
theorem insertAll_append (t : SymbolTable) (names names' : List Symbol) :
  t.insertAll (names ++ names') = (t.insertAll names).insertAll names'
  := List.foldl_append

/-- Numbering the symbols of an atom. -/
theorem readToken_atom {token : Token} (h : token.datum? = some d) :
  ∃ names : List Symbol, (∀ x ∈ names, d.Mentions x) ∧
    ∀ loc open_ t, readToken open_ ⟨loc, token⟩ t = settle d open_ (t.insertAll names)
  := by
  cases token with
  | symbol name =>
    cases h
    exact ⟨[name], List.forall_mem_singleton.2 .symbol, fun _ _ _ => rfl⟩
  | opening | closing | quote => cases h
  | _ =>
    cases h
    exact ⟨[], fun _ h => absurd h List.not_mem_nil, fun _ _ _ => rfl⟩

/-- A closing bracket ends what the last bracket opened, if it is of the same kind. -/
theorem readToken_closing (b b' : Bracket) (loc loc' : Location) (items : List Datum)
    (open_ : List Pending) :
  readToken (.sequence b' loc items :: open_) ⟨loc', .closing b⟩ =
    if b = b' then settle (b.enclose items.reverse) open_
    else throw ⟨.unexpectedClosing b, loc'⟩
  := rfl

/-- The symbols of the elements are those of what encloses them. -/
theorem Bracket.mentions_enclose {b : Bracket} {items : List Datum} {x : Symbol}
    (h : ∃ d ∈ items, d.Mentions x) :
  (b.enclose items).Mentions x
  := by
  obtain ⟨d, hd, hx⟩ := h
  cases b with
  | round => exact .list hd hx
  | square => exact .vector hd hx

section reading

variable {α : Type} {read : List Pending → List Lexeme → Reading α}
  {finish : Datum → List Lexeme → Reading α}

mutual

/-- Reading the tokens of a form settles its datum. -/
theorem Form.reads (hread : ReadsOneByOne read finish) {ls : List Lexeme} {d : Datum}
    (h : Form ls d) :
  ∃ names : List Symbol, (∀ x ∈ names, d.Mentions x) ∧
    ∀ open_ rest t, read open_ (ls ++ rest) t =
      (settle d open_ >>= (·.next read finish rest)) (t.insertAll names)
  := by
  cases h with
  | atom h =>
    obtain ⟨names, hnames, hsettle⟩ := readToken_atom h
    refine ⟨names, hnames, fun open_ rest t => ?_⟩
    rw [List.singleton_append, hread]
    exact bind_congr_at (hsettle _ open_ t) _
  | @sequence b loc loc' ls items h =>
    obtain ⟨names, hnames, hreads⟩ := h.reads hread
    refine ⟨names, fun x hx => Bracket.mentions_enclose (hnames x hx), fun open_ rest t => ?_⟩
    have hopen : read open_ (⟨loc, .opening b⟩ :: (ls ++ [⟨loc', .closing b⟩]) ++ rest) t =
        read (.sequence b loc [] :: open_) (ls ++ (⟨loc', .closing b⟩ :: rest)) t := by
      rw [List.cons_append, List.append_assoc, hread]
      rfl
    rw [hopen, hreads, hread]
    apply bind_congr_at
    rw [readToken_closing, if_pos rfl, List.append_nil, List.reverse_reverse]
  | @quote loc ls d h =>
    obtain ⟨names, hnames, hreads⟩ := h.reads hread
    refine ⟨names ++ ["quote"], List.forall_mem_append.2 ⟨fun x hx => ?_, ?_⟩,
      fun open_ rest t => ?_⟩
    · exact .list (List.mem_cons_of_mem _ List.mem_cons_self) (hnames x hx)
    · exact List.forall_mem_singleton.2 (.list List.mem_cons_self .symbol)
    · have hopen : read open_ (⟨loc, .quote⟩ :: ls ++ rest) t =
          read (.quote loc :: open_) (ls ++ rest) t := by
        rw [List.cons_append, hread]
        rfl
      rw [hopen, hreads, insertAll_append]
      rfl
termination_by 2 * ls.length
decreasing_by
  all_goals
    subst_vars
    simp only [List.length_cons, List.length_append]
    omega

/-- Reading the tokens of some forms inside of a bracket adds their data. -/
theorem Forms.reads (hread : ReadsOneByOne read finish) {ls : List Lexeme} {ds : List Datum}
    (h : Forms ls ds) :
  ∃ names : List Symbol, (∀ x ∈ names, ∃ d ∈ ds, d.Mentions x) ∧
    ∀ b loc items open_ rest t, read (.sequence b loc items :: open_) (ls ++ rest) t =
      read (.sequence b loc (ds.reverse ++ items) :: open_) rest (t.insertAll names)
  := by
  cases h with
  | nil => exact ⟨[], fun _ h => absurd h List.not_mem_nil, fun _ _ _ _ _ _ => rfl⟩
  | @cons ls ls' d ds hd hs =>
    obtain ⟨names, hnames, hreads⟩ := hd.reads hread
    obtain ⟨names', hnames', hreads'⟩ := hs.reads hread
    refine ⟨names ++ names', List.forall_mem_append.2 ⟨fun x hx => ?_, fun x hx => ?_⟩,
      fun b loc items open_ rest t => ?_⟩
    · exact ⟨d, List.mem_cons_self, hnames x hx⟩
    · obtain ⟨d', hd', hx⟩ := hnames' x hx
      exact ⟨d', List.mem_cons_of_mem _ hd', hx⟩
    · rw [List.append_assoc, hreads, insertAll_append, List.reverse_cons, List.append_assoc]
      exact hreads' b loc (d :: items) open_ rest _
termination_by 2 * ls.length + 1
decreasing_by
  all_goals
    subst_vars
    have := hd.length_pos
    simp only [List.length_append]
    omega

end

end reading

/-- A form is added to those that are read after it. -/
theorem more_eq (d : Datum) (ls : List Lexeme) :
  more d ls = (d :: ·) <$> parse [] ls
  := bind_pure_comp _ _

/-- What comes of the same result is the same. -/
theorem map_congr_at {α β : Type} {act act' : Reading α} {t t' : SymbolTable}
    (h : act t = act' t') (f : α → β) :
  (f <$> act) t = (f <$> act') t'
  := by
  rw [← bind_pure_comp, ← bind_pure_comp]
  exact bind_congr_at h _

/-- What comes of a result. -/
theorem map_ok {α β : Type} {act : Reading α} {t t' : SymbolTable} {a : α}
    (h : act t = .ok a t') (f : α → β) :
  (f <$> act) t = .ok (f a) t'
  := by
  change EStateM.map f act t = _
  rw [EStateM.map, h]

/-- Nothing comes of an error. -/
theorem map_error {α β : Type} {act : Reading α} {t t' : SymbolTable} {e : ReadError}
    (h : act t = .error e t') (f : α → β) :
  (f <$> act) t = .error e t'
  := by
  change EStateM.map f act t = _
  rw [EStateM.map, h]

/-- All forms of a sequence are read. -/
theorem Forms.parse (h : Forms ls ds) :
  ∃ names : List Symbol, (∀ x ∈ names, ∃ d ∈ ds, d.Mentions x) ∧
    ∀ rest t, parse [] (ls ++ rest) t = ((ds ++ ·) <$> parse [] rest) (t.insertAll names)
  := by
  induction ds generalizing ls with
  | nil =>
    cases h
    exact ⟨[], fun _ h => absurd h List.not_mem_nil, fun rest t => congrFun (id_map _).symm t⟩
  | cons d ds ih =>
    cases h with
    | @cons ls ls' _ _ hd hs =>
      obtain ⟨names, hnames, hreads⟩ := hd.reads parse_oneByOne
      obtain ⟨names', hnames', hparse⟩ := ih hs
      refine ⟨names ++ names', List.forall_mem_append.2 ⟨fun x hx => ?_, fun x hx => ?_⟩,
        fun rest t => ?_⟩
      · exact ⟨d, List.mem_cons_self, hnames x hx⟩
      · obtain ⟨d', hd', hx⟩ := hnames' x hx
        exact ⟨d', List.mem_cons_of_mem _ hd', hx⟩
      · have hmore : Source.parse [] (ls ++ ls' ++ rest) t =
            more d (ls' ++ rest) (t.insertAll names) := by
          rw [List.append_assoc, hreads]
          rfl
        rw [hmore, more_eq, insertAll_append, map_congr_at (hparse rest _), Functor.map_map]
        rfl

/-- A sequence of forms is read to its data. -/
theorem Forms.parse_all (h : Forms ls ds) :
  ∃ names : List Symbol, (∀ x ∈ names, ∃ d ∈ ds, d.Mentions x) ∧
    ∀ t, Source.parse [] ls t = .ok ds (t.insertAll names)
  := by
  obtain ⟨names, hnames, hparse⟩ := h.parse
  refine ⟨names, hnames, fun t => ?_⟩
  have hwhole := (hparse [] t).trans (map_ok (a := []) rfl _)
  rw [List.append_nil, List.append_nil] at hwhole
  exact hwhole

end Source

end Skein
