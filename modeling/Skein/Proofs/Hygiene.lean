import Skein.Proofs.Derivation.Handlers
import Skein.Proofs.Derivation.Lowering

/-!
# Hygiene

Lowering moves the trees of a body under binders of its own.  No name is captured by that: the
names that lowering binds are new, each of them is bound once, and around a copy the names of
the body are bound as they are in the body.  So a reference in a copy refers to the binder that
it refers to in the body.
-/

namespace Skein.Coroutine

/-! ### Names that are bound once -/

/-- Counts where a name is bound, other than as the own name of a function literal. -/
def Measure.binds (x : Symbol) : Measure :=
  ⟨fun _ => 0, fun y => if y = x then 1 else 0, fun _ _ => 0⟩

/-- Counts the function literals that refer to themselves by a name. -/
def Measure.refersToItself (x : Symbol) : Measure :=
  ⟨fun _ => 0, fun _ => 0, fun y _ => if y = x then 1 else 0⟩

/-- A measure that counts nothing but a name that is not found in a body counts nothing in the
parts of that body. -/
theorem Measure.total_eq_zero {f : Measure} {body e : Expr} (hquiet : f.Quiet body)
    (hatom : ∀ d, f.atom d = 0) (hheader : ∀ x params, body.Contains x → f.header x params = 0)
    (he : e.PartOf body) :
  f.total e = 0
  := by
  apply Expr.sum_eq_zero
  intro d hd
  have hd := hd.trans he
  have hbinders := hquiet.names fun x hx => hd.contains_of_mem_binders (x := x) hx
  rw [node, hatom, ite_self, hbinders, Nat.zero_add]
  split
  · rename_i x params hname
    exact hheader x params (hd.contains_of_header hname)
  · rfl

/-- A measure that counts nothing but a minted name counts in the code what it counts when that
name is minted. -/
theorem Compiles.total_eq_mint {table : Table} {body code : Expr} {ms : List Mark}
    {ns : List Mint} {n : Mint} {f : Measure} (h : Compiles table body code ms ns)
    (htable : table.Plain) (hnodup : (ns.map (·.symbol)).Nodup) (hn : n ∈ ns)
    (hcopies : ∀ c ∈ copiedTrees ms, c.PartOf body) (hquiet : f.Quiet body)
    (hatom : ∀ d, f.atom d = 0) (hheader : ∀ x params, body.Contains x → f.header x params = 0)
    (hmint : ∀ n' : Mint, n'.symbol ≠ n.symbol → f.mint n' = 0) :
  f.total code = f.mint n
  := by
  obtain ⟨gs, -, hgs⟩ := h.balanced (htable.generates body) fun _ _ => trivial
  have hcopied : weigh f.total ms = 0 := weigh_eq_zero fun c hc =>
    Measure.total_eq_zero hquiet hatom hheader (hcopies c hc)
  have hothers : ∀ n', n' ≠ n → n' ∈ ns → f.mint n' = 0 := fun n' hne hn' =>
    hmint n' fun hsymbol => hne (List.inj_on_of_nodup_map hnodup hn' hn hsymbol)
  have hmints : (ns.map f.mint).sum = f.mint n := by
    rw [List.sum_map_eq_nsmul_single n f.mint hothers,
      List.count_eq_one_of_mem (List.Nodup.of_map _ hnodup) hn, one_nsmul]
  have hatoms : (gs.map f.atom).sum = 0 := by
    apply List.sum_eq_zero
    intro a ha
    obtain ⟨g, -, rfl⟩ := List.mem_map.1 ha
    exact hatom g
  have htotal : f.total code = recorded ms ns f + (gs.map f.atom).sum := hgs f hquiet
  rw [htotal, recorded, hcopied, hmints, hatoms, Nat.zero_add, Nat.add_zero]

/-! ### What a reference refers to -/

/-- What a reference to a name refers to, where some names are bound around it: the innermost
binder of that name, after which the names around that binder follow.  There is nothing when the
name is free. -/
def referent (x : Symbol) (Γ : List Symbol) : List Symbol := Γ.dropWhile (· ≠ x)

/-- Names of another kind do not change what a reference refers to. -/
theorem filter_referent {p : Symbol → Bool} {x : Symbol} (hx : p x = true) (Γ : List Symbol) :
  (referent x Γ).filter p = referent x (Γ.filter p)
  := by
  induction Γ with
  | nil => rfl
  | cons y Γ ih =>
    by_cases hy : y = x
    · subst hy
      simp [referent, hx]
    · by_cases hp : p y = true
      · simpa [referent, hy, hp] using ih
      · simpa [referent, hy, hp] using ih

/-- Around a tree of a body, and inside of it, the names of the body are bound in the code as they
are in the body. -/
theorem Mark.Sound.filter_around {table : Table} {body : Expr} {t : SymbolTable} {m : Mark}
    (h : m.Sound table body (· ∉ t.names) []) (hbody : body.Over (· ∈ t.names)) {c : Expr}
    {Γ : List Symbol} (hc : c.LiesIn Γ m.source) :
  (Γ ++ m.around).filter (· ∈ t.names) = Γ ++ m.origin
  := by
  have haround := h.thread.append_left Γ
  rw [List.append_nil] at haround
  apply haround.filter
  · exact fun y hy => decide_eq_false hy
  · exact fun y hy => decide_eq_true (hbody y ((hc.trans h.source).contains y hy))

/-- Lowering is hygienic.  When all names of a body are in the table, the names that are minted
are not found in the body, and each of them is bound once in the code.  The head of a loop is
bound to the only function that refers to itself by that name; by the other minted names no
function refers to itself.  And a reference in a copy of a tree refers to the same binder in the
code as in the body, or is free in both. -/
theorem compile_hygienic {table : Table} {body code : Expr} {t t' : SymbolTable}
    (htable : table.Plain) (hbody : body.Over (· ∈ t.names))
    (h : compile table body t = .ok code t') :
  ∃ ms ns, Compiles table body code ms ns ∧
    t'.names.toList = t.names.toList ++ ns.map (·.symbol) ∧
    (∀ n ∈ ns, ¬ body.Contains n.symbol ∧ (Measure.binds n.symbol).total code = 1 ∧
      match n with
      | .name x => (Measure.refersToItself x).total code = 0
      | .head x params => (Measure.refersToItself x).total code = 1 ∧
        ∃ around inner start,
          (Expr.bind [(x, .lambda (some x) params inner)] start).LiesIn around code) ∧
    ∀ m ∈ ms, m.act = .copy →
      m.code = m.source ∧ m.source.LiesIn m.origin body ∧ m.code.LiesIn m.around code ∧
        ∀ x Γ, (Expr.var x).LiesIn Γ m.source →
          (x ∈ Γ ++ m.around ↔ x ∈ Γ ++ m.origin) ∧
            (referent x (Γ ++ m.around)).filter (· ∈ t.names) = referent x (Γ ++ m.origin)
  := by
  obtain ⟨ns, hns, ms, hms⟩ := compile_compiles table body t code t' h
  have hsound := hms.sound (N := (· ∉ t.names)) hns.new hns.nodup
  have hplaces : MarksIn (fun _ => True) ms code := hms.marksIn fun _ => htable.usesArgs
  have hcopy : ∀ m ∈ ms, m.act = .copy → m.code = m.source := fun m hm hcopy => by
    have hact := (hsound m hm).act
    rwa [hcopy] at hact
  have hcopies : ∀ c ∈ copiedTrees ms, c.PartOf body := by
    intro c hc
    obtain ⟨m, hm, rfl⟩ := List.mem_map.1 hc
    obtain ⟨hm, hact⟩ := List.mem_filter.1 hm
    exact hcopy m hm (Act.isCopy_iff.1 hact) ▸ (hsound m hm).source.partOf
  refine ⟨ms, ns, hms, hns.names, fun n hn => ?_, fun m hm hact => ?_⟩
  · have hnew : ¬ body.Contains n.symbol := fun hfound => hns.new n hn (hbody _ hfound)
    have hne : ∀ x, body.Contains x → x ≠ n.symbol := fun x hx heq => hnew (heq ▸ hx)
    have hitself : (Measure.refersToItself n.symbol).total code =
        (Measure.refersToItself n.symbol).mint n := by
      apply hms.total_eq_mint htable hns.nodup hn hcopies (fun _ _ => rfl) (fun _ => rfl)
      · exact fun x _ hx => if_neg (hne x hx)
      · rintro (x | ⟨x, params⟩) hx
        · rfl
        · exact (Nat.zero_add _).trans (if_neg hx)
    refine ⟨hnew, ?_, ?_⟩
    · have hbinds : (Measure.binds n.symbol).total code = (Measure.binds n.symbol).mint n := by
        apply hms.total_eq_mint htable hns.nodup hn hcopies _ (fun _ => rfl) fun _ _ _ => rfl
        · rintro (x | ⟨x, params⟩) hx <;> exact if_neg hx
        · exact fun x hx => if_neg (hne x hx)
      rw [hbinds]
      cases n <;> exact if_pos rfl
    · cases n with
      | name x => exact hitself
      | head x params =>
        refine ⟨hitself.trans ((Nat.zero_add _).trans (if_pos rfl)), ?_⟩
        obtain ⟨m, hm, hact⟩ := hms.headed x params hn
        have hhead := (hsound m hm).act
        rw [hact] at hhead
        obtain ⟨-, inner, start, hcode⟩ := hhead
        exact ⟨m.around, inner, start, hcode ▸ hplaces m hm trivial⟩
  · refine ⟨hcopy m hm hact, (hsound m hm).source, hplaces m hm trivial, fun x Γ hx => ?_⟩
    have haround := (hsound m hm).filter_around hbody hx
    have hinside : x ∈ t.names :=
      hbody x ⟨_, (hx.trans (hsound m hm).source).partOf, List.mem_cons_self⟩
    refine ⟨?_, ?_⟩
    · rw [← haround, List.mem_filter]
      exact (and_iff_left (decide_eq_true hinside)).symm
    · rw [filter_referent (decide_eq_true hinside), haround]

/-- A loop that binds a name that looks like a minted one. -/
def likeMinted : Expr :=
  .loop [("k#1", .literal (.scalar (.int 1)))]
    (.cond (.call (.var "await") [.var "op", .var "k#1"]) (.recur [.var "k#1"]) (.var "k#1"))

/-- The names that are minted for the loop differ from the one that looks like them. -/
theorem likeMinted_hygienic :
  ∃ code t', compile Table.default likeMinted (SymbolTable.empty.insertAll ["await", "op", "k#1"]) =
      .ok code t' ∧
    ∃ ms ns, Compiles Table.default likeMinted code ms ns ∧
      (∀ n ∈ ns, n.symbol ≠ "k#1" ∧ (Measure.binds n.symbol).total code = 1) ∧
      ∀ m ∈ ms, m.act = .copy → ∀ x Γ, (Expr.var x).LiesIn Γ m.source →
        (x ∈ Γ ++ m.around ↔ x ∈ Γ ++ m.origin)
  := by
  have hcompiles : ((compile Table.default likeMinted).run'
      (SymbolTable.empty.insertAll ["await", "op", "k#1"])).isSome = true := by decide +kernel
  have hover : likeMinted.Over
      (· ∈ (SymbolTable.empty.insertAll ["await", "op", "k#1"]).names) := by decide +kernel
  have hcontains : likeMinted.Contains "k#1" := ⟨likeMinted, .refl _, List.mem_cons_self⟩
  obtain ⟨code, t', hcode⟩ := Compiling.exists_eq_ok hcompiles
  obtain ⟨ms, ns, hms, -, hminted, hcopies⟩ := compile_hygienic Table.plain_default hover hcode
  refine ⟨code, t', hcode, ms, ns, hms, fun n hn => ?_, fun m hm hcopy x Γ hx => ?_⟩
  · obtain ⟨hnew, hbound, -⟩ := hminted n hn
    exact ⟨fun heq => hnew (heq ▸ hcontains), hbound⟩
  · obtain ⟨-, -, -, hrefers⟩ := hcopies m hm hcopy
    exact (hrefers x Γ hx).1

end Skein.Coroutine
