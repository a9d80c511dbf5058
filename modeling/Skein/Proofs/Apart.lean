import Skein.Coroutine.Handlers
import Skein.Proofs.Grammar
import Skein.Proofs.Lowering
import Skein.Proofs.Parts

/-!
# Names of compiled trees

A tree that a form is compiled to uses names of the form, a few names that compiling itself refers
to, and names that it mints.  A name that is minted before a form is compiled, and is not found in
the form, is therefore not found in the tree either: what is minted later is new, the code that
coroutines become has minted names with other stems, and handlers are to give no minted names of
their own to it.
-/

namespace Skein

/-! ### Names that a tree uses -/

/-- A tree uses only names of `U`: its parts refer to such names, and its loops bind them. -/
def Expr.Uses (U : Symbol → Prop) (e : Expr) : Prop :=
  ∀ d : Expr, d.PartOf e → (∀ x, d = .var x → U x) ∧ ∀ bs body, d = .loop bs body → ∀ b ∈ bs, U b.1

namespace Expr.Uses

variable {U : Symbol → Prop} {e c : Expr}

/-- The names that a part of a tree uses. -/
theorem part (h : e.Uses U) (hc : c.PartOf e) :
  c.Uses U
  := fun d hd => h d (hd.trans hc)

/-- The names that a child of a tree uses. -/
theorem child (h : e.Uses U) (hc : c ∈ e.children) :
  c.Uses U
  := h.part (partOf_of_mem_children hc)

/-- A tree that uses only names of `U` mentions only such names. -/
theorem mentions (h : e.Uses U) {x : Symbol} (hx : e.Mentions x) :
  U x
  := (h _ (mentions_iff_partOf.1 hx)).1 x rfl

/-- A reference. -/
theorem var {x : Symbol} (hx : U x) :
  (Expr.var x).Uses U
  := by
  intro d hd
  rcases partOf_iff.1 hd with rfl | ⟨c, hc, -⟩
  · exact ⟨fun y hy => Expr.var.inj hy ▸ hx, nofun⟩
  · exact absurd hc List.not_mem_nil

/-- A tree that is neither a reference nor a loop uses what its pieces use. -/
theorem of_pieces (hvar : ∀ x, e ≠ .var x) (hloop : e.isLoop = false)
    (h : ∀ c ∈ e.pieces, c.Uses U) :
  e.Uses U
  := by
  intro d hd
  rcases partOf_iff.1 hd with rfl | ⟨c, hc, hd⟩
  · refine ⟨fun x hx => absurd hx (hvar x), fun bs body heq => ?_⟩
    rw [heq] at hloop
    cases hloop
  · exact h c hc d hd

/-- A loop uses the names that it binds, and what its initial values and its body use. -/
theorem loop {bs : List (Symbol × Expr)} {body : Expr} (hbs : ∀ b ∈ bs, U b.1 ∧ b.2.Uses U)
    (hbody : body.Uses U) :
  (Expr.loop bs body).Uses U
  := by
  intro d hd
  rcases partOf_iff.1 hd with rfl | ⟨c, hc, hd⟩
  · refine ⟨nofun, ?_⟩
    rintro _ _ ⟨⟩ b hb
    exact (hbs b hb).1
  · rcases List.mem_append.1 hc with hc | hc
    · obtain ⟨b, hb, rfl⟩ := List.mem_map.1 hc
      exact (hbs b hb).2 d hd
    · rw [List.mem_singleton.1 hc] at hd
      exact hbody d hd

/-- A call uses what the function and the arguments use. -/
theorem call {f : Expr} {args : List Expr} (hf : f.Uses U) (hargs : ∀ a ∈ args, a.Uses U) :
  (Expr.call f args).Uses U
  := .of_pieces nofun rfl (List.forall_mem_cons.2 ⟨hf, hargs⟩)

/-- A tree without pieces that is no reference uses no names. -/
theorem leaf (hvar : ∀ x, e ≠ .var x) (hloop : e.isLoop = false) (h : e.pieces = []) :
  e.Uses U
  := .of_pieces hvar hloop fun _ hc => absurd (h ▸ hc) List.not_mem_nil

/-- A sequence, which may be a single tree. -/
theorem block {es : List Expr} (h : ∀ c ∈ es, c.Uses U) :
  (Expr.block es).Uses U
  := by
  unfold Expr.block
  split
  · exact leaf nofun rfl rfl
  · exact h _ List.mem_cons_self
  · exact of_pieces nofun rfl h

/-- Bindings around a body. -/
theorem bind {bs : List (Symbol × Expr)} {body : Expr} (hbs : ∀ b ∈ bs, b.2.Uses U)
    (hbody : body.Uses U) :
  (Expr.bind bs body).Uses U
  := .of_pieces nofun rfl (forall_children_bind hbs hbody)

end Expr.Uses

/-! ### Handlers -/

namespace Coroutine

/-- The code that a handler makes uses the names of the two continuations, those that its arguments
use, and names that are not minted. -/
def Handler.Discreet (handler : Handler) : Prop :=
  ∀ U : Symbol → Prop, (∀ x : Symbol, '#' ∉ x.toList → U x) → ∀ site args code,
    U site.success → U site.failure → (∀ a ∈ args, a.Uses U) → handler site args = .ok code →
    code.Uses U

/-- All handlers of a table are discreet. -/
def Table.Discreet (table : Table) : Prop := ∀ entry ∈ table.entries, entry.2.Discreet

/-- The handlers of all flavors are discreet. -/
def Flavors.Discreet (flavors : Flavors) : Prop :=
  ∀ name table, flavors.table name = .ok table → table.Discreet

/-- Waiting for a call refers to the two continuations. -/
theorem await_discreet :
  await.Discreet
  := by
  intro U _ site args code hsuccess hfailure hargs hcode
  cases args with
  | nil => cases hcode
  | cons op rest =>
    cases hcode
    obtain ⟨hop, hrest⟩ := List.forall_mem_cons.1 hargs
    have hwrapped : ∀ b x, U x → (Expr.call (.builtin b) [.var x]).Uses U := fun b x hx =>
      .call (.leaf nofun rfl rfl) (List.forall_mem_singleton.2 (.var hx))
    exact .call hop (List.forall_mem_append.2 ⟨hrest, List.forall_mem_cons.2
      ⟨hwrapped _ _ hsuccess, List.forall_mem_singleton.2 (hwrapped _ _ hfailure)⟩⟩)

/-- Doubling refers to multiplication. -/
theorem twice_discreet :
  twice.Discreet
  := by
  intro U hU site args code hsuccess _ hargs hcode
  unfold twice at hcode
  split at hcode
  · cases hcode
    obtain ⟨ha, -⟩ := List.forall_mem_cons.1 hargs
    refine .call (.var hsuccess) (List.forall_mem_singleton.2 (.call (.var (hU _ ?_)) ?_))
    · decide
    · exact List.forall_mem_cons.2 ⟨ha, List.forall_mem_singleton.2 (.leaf nofun rfl rfl)⟩
  · cases hcode

/-- Delivering the names around a call refers to the function that makes vectors. -/
theorem locals_discreet :
  locals.Discreet
  := by
  intro U hU site args code hsuccess _ hargs hcode
  cases hcode
  refine .call (.var hsuccess) (List.forall_mem_singleton.2 (.call (.var (hU _ ?_)) ?_))
  · decide
  · exact List.forall_mem_cons.2 ⟨.leaf nofun rfl rfl, hargs⟩

/-- Delivering an error refers to the continuation for errors. -/
theorem fail_discreet :
  fail.Discreet
  := by
  intro U _ site args code _ hfailure hargs hcode
  cases hcode
  exact .call (.var hfailure) hargs

/-- The handlers of the default flavors are discreet. -/
theorem Flavors.discreet_default :
  Flavors.default.Discreet
  := by
  intro name table h
  unfold Flavors.table at h
  split at h
  · rename_i hfind
    cases h
    obtain ⟨-, rfl⟩ := Prod.mk.inj (List.mem_singleton.1 (List.mem_of_find?_eq_some hfind))
    exact List.forall_mem_singleton.2 await_discreet
  · cases h

/-! ### Lowering -/

variable {U : Symbol → Prop} {table : Table}

/-- Lowering adds references to minted names and the code that handlers make. -/
theorem carries_uses (htable : table.Discreet) (hplain : ∀ x : Symbol, '#' ∉ x.toList → U x)
    (hstems : ∀ stem ∈ stems, ∀ n, U (SymbolTable.spell stem n)) :
  Carries table U (Expr.Uses U) (Expr.Uses U)
  where
  fresh h n := hstems _ h n
  copied h _ := h
  call h := ⟨.inr (.inl (h.child List.mem_cons_self)),
    fun a ha => h.child (List.mem_cons_of_mem _ ha)⟩
  children h _ hc := h.child hc
  loopNames h := (h _ (.refl _)).2 _ _ rfl
  name := .var
  raise hx := .call (.leaf nofun rfl rfl) (List.forall_mem_singleton.2 (.var hx))
  block := .block
  handler := by
    intro f op handler site args code h hsuccess hfailure hargs hcode
    unfold calledHandler? at h
    split at h
    · obtain ⟨handler', hfind, hpair⟩ := Option.map_eq_some_iff.1 h
      cases hpair
      obtain ⟨entry, hentry, rfl⟩ := Option.map_eq_some_iff.1 hfind
      exact htable entry (List.mem_of_find?_eq_some hentry) U hplain site args code hsuccess
        hfailure hargs hcode
    · cases h
  var := .var
  lambda h := .of_pieces nofun rfl (List.forall_mem_singleton.2 h)
  callBuiltin := .call (.leaf nofun rfl rfl)
  node {e} hvar _ hbody hloop hchildren := by
    have hpieces : e.pieces = e.children := by
      cases e with
      | lambda => cases hbody
      | _ => rfl
    exact .of_pieces hvar hloop (hpieces ▸ hchildren)

end Coroutine

/-! ### Compiling -/

namespace Compile

open Compiling

variable {D : Dialect} {o : Options}

/-- Dynamic bindings around a body refer to the minted name of their frame. -/
theorem uses_dynamically {U : Symbol → Prop} {depth : Symbol} {bs : List (Symbol × Expr)}
    {body : Expr} (hdepth : U depth) (hbs : ∀ b ∈ bs, b.2.Uses U) (hbody : body.Uses U) :
  (dynamically depth bs body).Uses U
  := by
  have hargs : ∀ a ∈ bs.flatMap fun b => [.literal (.symbol b.1), b.2], a.Uses U := by
    intro a ha
    obtain ⟨b, hb, ha⟩ := List.mem_flatMap.1 ha
    rcases List.mem_cons.1 ha with rfl | ha
    · exact .leaf nofun rfl rfl
    · obtain rfl := List.mem_singleton.1 ha
      exact hbs b hb
  have hbind : dynamically depth bs body = .bind
      [(depth, .call (.builtin .pushBindings) (bs.flatMap fun b => [.literal (.symbol b.1), b.2]))]
      (.protect body [] (some (.call (.builtin .popBindings) [.var depth]))) := rfl
  rw [hbind]
  refine .bind (List.forall_mem_singleton.2 (.call (.leaf nofun rfl rfl) hargs)) ?_
  refine .of_pieces nofun rfl (Expr.forall_children_protect hbody nofun ?_)
  rintro _ ⟨⟩
  exact .call (.leaf nofun rfl rfl) (List.forall_mem_singleton.2 (.var hdepth))

/-- Trees that use only names of a dialect are a kind of trees, when these are all names that are
not minted and those that lowering mints. -/
theorem uses_kind (ho : o.flavors.Discreet) (hplain : ∀ x : Symbol, '#' ∉ x.toList → D.Name x)
    (hstems : ∀ stem ∈ Coroutine.stems, ∀ n, D.Name (SymbolTable.spell stem n)) :
  Kind D o fun _ e => e.Uses D.Name
  where
  literal _ := .leaf nofun rfl rfl
  var := .var
  call := .call
  cond htest hyes hno := .of_pieces nofun rfl (List.forall_mem_cons.2
    ⟨htest, List.forall_mem_cons.2 ⟨hyes, List.forall_mem_singleton.2 hno⟩⟩)
  seq _ hes := .of_pieces nofun rfl hes.forall_mem
  bind _ hbs := .bind fun b hb => (hbs b hb).2
  loop _ := .loop
  recur hargs := .of_pieces nofun rfl hargs
  protect hbody hclauses hcleanup := .of_pieces nofun rfl
    (Expr.forall_children_protect hbody (fun c hc => (hclauses c hc).2.2) hcleanup)
  define _ he := .of_pieces nofun rfl (List.forall_mem_singleton.2 he)
  lambda _ _ hbody := .of_pieces nofun rfl (List.forall_mem_singleton.2 hbody)
  dynamically _ hdepth hbs hbody := uses_dynamically hdepth (fun b hb => (hbs b hb).2) hbody
  coroutine _ htable hbody :=
    (Coroutine.carries_uses (ho _ _ htable) hplain hstems).compile hbody

/-- All data, where some names are numbered. -/
def holding (held : Symbol → Prop) : Dialect :=
  { Dialect.all with
    Held := held
    minted := fun _ _ _ => trivial }

/-- Compiling a form only adds names. -/
theorem form_grows (o : Options) (p : Position) (d : Datum) :
  Grows (form o p d)
  := by
  intro t e t' h
  have hany : Kind (holding (· ∈ t.names)) o fun _ _ => True := by
    constructor
    case coroutine => exact fun _ _ _ => .any _
    all_goals
      intros
      trivial
  exact (form_kind hany p trivial t e t' (fun _ hx => hx) h).1

/-- The names that compiling refers to have no hash. -/
theorem ne_of_known {x y : Symbol} (hx : '#' ∈ x.toList) (hy : y ∈ ["vector", "inc", "<"]) :
  y ≠ x
  := by
  rintro rfl
  simp only [List.mem_cons, List.not_mem_nil, or_false] at hy
  rcases hy with rfl | rfl | rfl <;> revert hx <;> decide

/-- Data that do not mention a name, which is numbered and is no name that compiling refers to. -/
def apart (x : Symbol) (hx : '#' ∈ x.toList) : Dialect where
  Form d := ¬ d.Mentions x
  Name y := y ≠ x
  Selects _ := True
  Literal _ := True
  Held y := y = x
  literal _ := trivial
  symbol h heq := h (heq ▸ .symbol)
  keyword _ := trivial
  vector h _ hd hmentions := h (.vector hd hmentions)
  list h := .inl fun _ hd hmentions => h (.list hd hmentions)
  minted _ _ hn := hn
  known h := ne_of_known hx h
  constant _ := trivial

/-- Minted names have a hash. -/
theorem hash_mem_spell (stem : String) (n : Nat) :
  '#' ∈ (SymbolTable.spell stem n).toList
  := by
  simp [SymbolTable.spell, String.toList_append]

/-- A minted name tells its stem. -/
theorem stem_eq_of_spell {stem stem' : String} {n n' : Nat} (hstem : '#' ∉ stem.toList)
    (hstem' : '#' ∉ stem'.toList) (h : SymbolTable.spell stem n = SymbolTable.spell stem' n') :
  stem = stem'
  := by
  have htake : ∀ {stem : String} (n : Nat), '#' ∉ stem.toList →
      (SymbolTable.spell stem n).toList.takeWhile (· ≠ '#') = stem.toList := by
    intro stem n hstem
    have hstem : ∀ c ∈ stem.toList, decide (c ≠ '#') = true := by
      intro c hc
      exact decide_eq_true fun heq => hstem (heq ▸ hc)
    rw [SymbolTable.spell, String.append_assoc, String.toList_append,
      List.takeWhile_append_of_pos hstem, String.toList_append]
    exact List.append_nil _
  have heq := htake n hstem
  rw [h, htake n' hstem'] at heq
  exact (String.toList_inj.1 heq).symm

/-- A name that compiling mints. -/
def Minted (x : Symbol) : Prop :=
  ∃ stem ∈ ["and", "or", "limit", "depth"], ∃ n, x = SymbolTable.spell stem n

/-- A new name with one of these stems is minted. -/
theorem minted_of_fresh {stem : String} {x : Symbol} {t t' : SymbolTable}
    (hstem : stem ∈ ["and", "or", "limit", "depth"]) (h : fresh stem t = .ok x t') :
  Minted x
  := by
  obtain ⟨rfl, -⟩ := fresh_eq_ok_iff.1 h
  exact ⟨stem, hstem, _, rfl⟩

/-- A name that was minted for a form before is found neither in a form that does not mention it
nor in the tree that this form is compiled to, and it stays numbered. -/
theorem form_apart (ho : o.flavors.Discreet) {x : Symbol} (hx : Minted x) (p : Position) {d : Datum}
    (hd : ¬ d.Mentions x) {t t' : SymbolTable} (ht : x ∈ t.names) {e : Expr}
    (h : form o p d t = .ok e t') :
  x ∈ t'.names ∧ ¬ e.Mentions x
  := by
  obtain ⟨stem, hstem, n, rfl⟩ := hx
  have hplain : ∀ y : Symbol, '#' ∉ y.toList → y ≠ SymbolTable.spell stem n := by
    rintro _ hy rfl
    exact hy (hash_mem_spell stem n)
  have hstems : ∀ stem' ∈ Coroutine.stems, ∀ n',
      SymbolTable.spell stem' n' ≠ SymbolTable.spell stem n := by
    intro stem' hstem' n' heq
    have hothers : ∀ stem ∈ ["and", "or", "limit", "depth"],
        '#' ∉ stem.toList ∧ stem ∉ Coroutine.stems := by decide
    have hnohash : ∀ stem ∈ Coroutine.stems, '#' ∉ stem.toList := by decide
    obtain ⟨hnohash', hother⟩ := hothers stem hstem
    exact hother (stem_eq_of_spell (hnohash stem' hstem') hnohash' heq ▸ hstem')
  have hkind : Kind (apart _ (hash_mem_spell stem n)) o
      fun _ e => e.Uses (· ≠ SymbolTable.spell stem n) := uses_kind ho hplain hstems
  obtain ⟨hheld, huses⟩ := form_kind hkind p hd t e t' (fun y hy => hy ▸ ht) h
  exact ⟨hheld _ rfl, fun hmentions => huses.mentions hmentions rfl⟩

end Compile

end Skein
