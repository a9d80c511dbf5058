import Skein.Proofs.Derivation.Scopes
import Skein.Proofs.Rewriting

/-!
# The head of a loop

A lowered loop is a function, its head.  Its name is used in the code in two ways only: the loop
is entered by a call of the head with the names of the loop, and it is entered anew by a thunk
of a call of the head, whose arguments need no evaluation.  Here this is carried through a
derivation: the number of calls that enter a loop is the number of times that its head has been
minted.
-/

namespace Skein.Coroutine

open Expr (placedBindings)

/-- A value that a loop is entered anew with, from a thunk that is made where some names are
bound: a literal, a function that the code holds, or one of these names. -/
inductive Ready (Γ : List Symbol) : Expr → Prop where
  | literal (d : Datum) : Ready Γ (.literal d)
  | builtin (b : Builtin) : Ready Γ (.builtin b)
  | var {x : Symbol} (hx : x ∈ Γ) : Ready Γ (.var x)

mutual

/-- In a tree, where some names are bound around it, a head is called a number of times with the
names of its loop.  All other references to it are calls from thunks, with as many ready values
as the loop binds names. -/
inductive Entered (x : Symbol) (params : List Symbol) : List Symbol → Nat → Expr → Prop where
  | entry {Γ : List Symbol} (hx : x ∉ params) :
    Entered x params Γ 1 (.call (.var x) (params.map .var))
  | reentry {Γ : List Symbol} {values : List Expr} (hlength : values.length = params.length)
    (hready : ∀ v ∈ values, Ready Γ v) (hx : Expr.var x ∉ values) :
    Entered x params Γ 0 (reentryCall x values)
  | node {Γ : List Symbol} {n : Nat} {e : Expr} (hne : e ≠ .var x)
    (h : EnteredAll x params Γ n e.placed) : Entered x params Γ n e

/-- In some trees, where more names are bound around each of them, a head is called a number of
times altogether. -/
inductive EnteredAll (x : Symbol) (params : List Symbol) :
    List Symbol → Nat → List (List Symbol × Expr) → Prop where
  | nil {Γ : List Symbol} : EnteredAll x params Γ 0 []
  | cons {Γ Δ : List Symbol} {n k : Nat} {e : Expr} {ps : List (List Symbol × Expr)}
    (h : Entered x params (Δ ++ Γ) n e) (hs : EnteredAll x params Γ k ps) :
    EnteredAll x params Γ (n + k) ((Δ, e) :: ps)

end

/-- A tree does not refer to a head. -/
def Clear (x : Symbol) (params : List Symbol) (e : Expr) : Prop := ∀ Γ, Entered x params Γ 0 e

variable {x y k : Symbol} {params : List Symbol} {Γ Δ : List Symbol} {n m : Nat} {e c : Expr}
  {es : List Expr} {ps qs : List (List Symbol × Expr)} {bs ds : List (Symbol × Expr)}

namespace EnteredAll

/-- One tree. -/
theorem single (h : Entered x params (Δ ++ Γ) n e) :
  EnteredAll x params Γ n [(Δ, e)]
  := .cons h .nil

/-- More trees. -/
theorem append (h : EnteredAll x params Γ n ps) (h' : EnteredAll x params Γ m qs) :
  EnteredAll x params Γ (n + m) (ps ++ qs)
  := by
  induction ps generalizing n with
  | nil =>
    cases h
    rw [Nat.zero_add]
    exact h'
  | cons p ps ih =>
    cases h with
    | cons he hs =>
      rw [Nat.add_assoc]
      exact .cons he (ih hs)

/-- Trees that do not refer to the head. -/
theorem clear (h : ∀ p ∈ ps, Clear x params p.2) :
  EnteredAll x params Γ 0 ps
  := by
  induction ps with
  | nil => exact .nil
  | cons p ps ih =>
    obtain ⟨hp, hps⟩ := List.forall_mem_cons.1 h
    exact .cons (hp _) (ih hps)

/-- More names around some trees. -/
theorem around (h : EnteredAll x params (Δ ++ Γ) n ps) :
  EnteredAll x params Γ n (ps.map fun p => (p.1 ++ Δ, p.2))
  := by
  induction ps generalizing n with
  | nil =>
    cases h
    exact .nil
  | cons p ps ih =>
    cases h with
    | cons he hs =>
      rw [← List.append_assoc] at he
      exact .cons he (ih hs)

/-- Bindings inside of other bindings. -/
theorem bindings_append (hbs : EnteredAll x params Γ n (placedBindings [] bs))
    (hds : EnteredAll x params ((bs.map (·.1)).reverse ++ Γ) m (placedBindings [] ds)) :
  EnteredAll x params Γ (n + m) (placedBindings [] (bs ++ ds))
  := by
  have hplaced := Expr.placedBindings_append [] (bs.map (·.1)).reverse ds
  rw [List.nil_append] at hplaced
  rw [Expr.placedBindings_concat, List.append_nil, hplaced]
  exact hbs.append hds.around

end EnteredAll

/-- A tree in which the head is not found does not refer to it. -/
theorem Clear.of_not_contains {e : Expr} (h : ¬ e.Contains x) :
  Clear x params e
  := by
  intro Γ
  refine .node ?_ (.clear fun p hp => ?_)
  · rintro rfl
    exact h ⟨_, .refl _, List.mem_cons_self⟩
  · have hpiece : p.2 ∈ e.pieces := by
      rw [← Expr.map_snd_placed]
      exact List.mem_map_of_mem hp
    have := Expr.weight_lt_of_mem_pieces hpiece
    exact of_not_contains fun hx => h (Expr.PartOf.contains (.piece hpiece (.refl _)) hx)
termination_by e.weight

/-- A reference to another name. -/
theorem Clear.var (h : y ≠ x) :
  Clear x params (.var y)
  := fun _ => .node (fun heq => h (Expr.var.inj heq)) .nil

/-- A function that the code holds. -/
theorem Clear.builtin (b : Builtin) :
  Clear x params (.builtin b)
  := fun _ => .node nofun .nil

/-- References to other names. -/
theorem Clear.ne {y : Symbol} (h : Clear x params (.var y)) :
  y ≠ x
  := by
  have h := h []
  generalize hv : Expr.var y = v at h
  cases h with
  | reentry => cases hv
  | node hne => exact fun heq => hne (by rw [← hv, heq])

/-- A call of values that do not refer to the head. -/
theorem Clear.call (h : Clear x params e) (hes : ∀ d ∈ es, Clear x params d) :
  Clear x params (.call e es)
  := by
  refine fun Γ => .node nofun (.clear fun p hp => ?_)
  rcases List.mem_cons.1 hp with rfl | hp
  · exact h
  · obtain ⟨d, hd, rfl⟩ := List.mem_map.1 hp
    exact hes d hd

/-- An error that is raised. -/
theorem Clear.raising (h : y ≠ x) :
  Clear x params (raising (.var y))
  := (Clear.builtin .throw).call (List.forall_mem_singleton.2 (.var h))

namespace Entered

/-- A value that is sent. -/
theorem send (hk : k ≠ x) (h : Entered x params Γ n e) :
  Entered x params Γ n (.send k e)
  := by
  have hargs : EnteredAll x params Γ n [([], e)] := .single h
  have hcall : EnteredAll x params Γ (0 + n) [([], .var k), ([], e)] :=
    .cons (Clear.var hk _) hargs
  rw [Nat.zero_add] at hcall
  exact .node nofun hcall

/-- A definition. -/
theorem define (h : Entered x params Γ n e) :
  Entered x params Γ n (.define y e)
  := .node nofun (.single h)

/-- Bindings of which some enter the loop. -/
theorem binding (hbs : EnteredAll x params Γ n (placedBindings [] bs))
    (h : Entered x params ((bs.map (·.1)).reverse ++ Γ) m c) :
  Entered x params Γ (n + m) (.binding bs c)
  := by
  unfold Expr.binding
  split
  · rename_i hnil
    obtain rfl := List.isEmpty_iff.1 hnil
    cases hbs
    rw [Nat.zero_add]
    exact h
  · exact .node nofun (hbs.append (.single h))

/-- Bindings of values that do not refer to the head. -/
theorem binding_clear (hbs : ∀ b ∈ bs, Clear x params b.2)
    (h : Entered x params ((bs.map (·.1)).reverse ++ Γ) n c) :
  Entered x params Γ n (.binding bs c)
  := by
  have hclear : EnteredAll x params Γ 0 (placedBindings [] bs) := by
    apply EnteredAll.clear
    intro p hp
    have hmem : p.2 ∈ bs.map (·.2) := by
      rw [← Expr.map_snd_placedBindings []]
      exact List.mem_map_of_mem hp
    obtain ⟨b, hb, hvalue⟩ := List.mem_map.1 hmem
    exact hvalue ▸ hbs b hb
  have hbinding := binding hclear h
  rwa [Nat.zero_add] at hbinding

/-- A sequence of which some trees enter the loop. -/
theorem block (hne : es ≠ []) (h : EnteredAll x params Γ n (es.map ([], ·))) :
  Entered x params Γ n (.block es)
  := by
  unfold Expr.block
  split
  · exact absurd rfl hne
  · cases h with
    | cons he hs =>
      cases hs
      exact he
  · exact .node nofun h

/-- A sequence in which only the last tree may refer to the head. -/
theorem block_clear (hes : ∀ e ∈ es, Clear x params e) (h : Entered x params Γ n c) :
  Entered x params Γ n (.block (es ++ [c]))
  := by
  have hbefore : EnteredAll x params Γ 0 (es.map ([], ·)) :=
    .clear (List.forall_mem_map.2 hes)
  have hall := hbefore.append (EnteredAll.single (Δ := []) h)
  rw [Nat.zero_add] at hall
  refine block (List.concat_ne_nil _ _) ?_
  rw [List.map_append]
  exact hall

/-- A guarded body. -/
theorem guardedBy (hy : y ≠ x) (hk : k ≠ x) (h : Entered x params Γ n c) :
  Entered x params Γ n (guardedBy y c k)
  := .node nofun (.cons h (.single (send hk (Clear.var hy _))))

/-- A continuation. -/
theorem continuation {z : Symbol} (hy : y ≠ x) (hk : k ≠ x)
    (h : Entered x params (z :: Γ) n c) :
  Entered x params Γ n (continuation z y c k)
  := .node nofun (.single (h.guardedBy hy hk))

end Entered

/-- A clause that is selected. -/
theorem Entered.selection {clauses : List (Clause Expr)} (hy : y ≠ x)
    (h : EnteredAll x params Γ n (clauses.map fun c => ([c.var], c.body))) :
  Entered x params Γ n (selection y clauses)
  := by
  have hplaced : (Expr.protect (raising (.var y)) clauses none).placed =
      ([], raising (.var y)) :: clauses.map fun c => ([c.var], c.body) := List.append_nil _
  have hselect : Entered x params Γ (0 + n) (.protect (raising (.var y)) clauses none) := by
    refine .node nofun ?_
    rw [hplaced]
    exact .cons (Clear.raising hy _) h
  rw [Nat.zero_add] at hselect
  exact .node nofun (.single hselect)

/-! ### Heads in a derivation -/

/-- A scope knows a head, where some names are bound in the code: its names are bound there, and
if its loop is that of the head, it takes as many values as that. -/
structure Knows (x : Symbol) (params Ω : List Symbol) (s : Scope) : Prop where
  bound : ∀ y ∈ s.bound, y ∈ Ω
  success : s.success ≠ x ∧ s.success ∈ Ω
  failure : s.failure ≠ x ∧ s.failure ∈ Ω
  head : ∀ head ∈ s.head, head.name = x → head.arity = params.length

namespace Knows

variable {s : Scope} {Ω : List Symbol} {f : Symbol} {xs : List Symbol}

/-- More names are bound. -/
theorem binding (h : Knows x params Ω s) (xs : List Symbol) :
  Knows x params (xs.reverse ++ Ω) (s.binding xs)
  where
  bound y hy := (List.mem_append.1 hy).elim (List.mem_append_left _)
    fun hy => List.mem_append_right _ (h.bound y hy)
  success := ⟨h.success.1, List.mem_append_right _ h.success.2⟩
  failure := ⟨h.failure.1, List.mem_append_right _ h.failure.2⟩
  head := h.head

/-- More names are bound in the code. -/
theorem around (h : Knows x params Ω s) (Δ : List Symbol) :
  Knows x params (Δ ++ Ω) s
  where
  bound y hy := List.mem_append_right _ (h.bound y hy)
  success := ⟨h.success.1, List.mem_append_right _ h.success.2⟩
  failure := ⟨h.failure.1, List.mem_append_right _ h.failure.2⟩
  head := h.head

/-- The scope of a tree whose value goes to a continuation. -/
theorem delivering (h : Knows x params Ω s) (hk : k ≠ x) :
  Knows x params (k :: Ω) (s.delivering k)
  := { h.binding [k] with success := ⟨hk, List.mem_cons_self⟩ }

/-- The scope of the body of a loop. -/
theorem inLoop (head : Head) (h : Knows x params Ω s)
    (hhead : head.name = x → head.arity = params.length) :
  Knows x params (head.name :: Ω) (s.inLoop head)
  := { h.binding [head.name] with
    head := fun _ hmem => by
      cases hmem
      exact hhead }

/-- The scope of a tree whose value and errors go elsewhere. -/
theorem continuingWith (h : Knows x params Ω s) (hk : k ≠ x ∧ k ∈ Ω) (hf : f ≠ x ∧ f ∈ Ω) :
  Knows x params Ω (s.continuingWith k f)
  where
  bound := List.forall_mem_cons.2 ⟨hf.2, List.forall_mem_cons.2 ⟨hk.2, h.bound⟩⟩
  success := hk
  failure := hf
  head := h.head

end Knows

/-- In what something has been lowered to, a head is called a number of times. -/
def Output.Entered (x : Symbol) (params Ω : List Symbol) (n : Nat) : Output → Prop
  | .code c => Coroutine.Entered x params Ω n c
  | .landing l => EnteredAll x params Ω n (placedBindings [] l.bindings)
  | .clauses cs => EnteredAll x params Ω n (cs.map fun c => ([c.var], c.body))

/-- A head is called as often as it has been minted, and as often as it is called in what is
put into the code. -/
def Job.Entered (x : Symbol) (params : List Symbol) (out : Output) (ns : List Mint) :
    Job → Prop
  | .tree _ s _ | .cleanup _ s _ | .bodies _ s _ =>
    ∀ Ω, Knows x params Ω s → out.Entered x params Ω (ns.count (.head x params))
  | .clauses _ s last _ =>
    ∀ Ω, Knows x params Ω s → last.success ≠ x ∧ last.success ∈ Ω →
      last.failure ≠ x ∧ last.failure ∈ Ω →
      out.Entered x params Ω (ns.count (.head x params))
  | .receive _ s _ k y c _ =>
    ∀ Ω n, Knows x params Ω s → k ≠ x → Coroutine.Entered x params (y :: Ω) n c →
      out.Entered x params Ω (n + ns.count (.head x params))
  | .inOrder _ s values es finish =>
    ∀ Ω, Knows x params Ω s → (∀ v ∈ values, Clear x params v.code) →
      (∀ Ω, Knows x params Ω finish.scope → (∀ v ∈ finish.values, Clear x params v.code) →
        finish.values.length = values.length + es.length →
        (∀ n ∈ finish.minted, n.symbol = x → n = .head x params) →
        Coroutine.Entered x params Ω (finish.minted.count (.head x params)) finish.code) →
      out.Entered x params Ω (ns.count (.head x params))
  | .sequence _ s es made =>
    ∀ Ω, es ++ made ≠ [] → Knows x params Ω s → (∀ c ∈ made, Clear x params c) →
      out.Entered x params Ω (ns.count (.head x params))
  | .bindings _ s bs tail =>
    ∀ Ω n, Knows x params Ω s →
      (match tail with
        | .value _ => n = 0
        | .code c => Coroutine.Entered x params ((bs.map (·.1)).reverse ++ Ω) n c) →
      out.Entered x params Ω (n + ns.count (.head x params))

/-- A value is ready where more names are bound. -/
theorem Ready.mono (h : Ready Γ e) (hΓ : Γ ⊆ Δ) :
  Ready Δ e
  := by
  cases h with
  | literal d => exact .literal d
  | builtin b => exact .builtin b
  | var hx => exact .var (hΓ hx)

/-- A value that is fixed in a scope is ready where its names are bound. -/
theorem Ready.of_isFixed {s : Scope} (h : isFixed s e = true) :
  Ready s.bound e
  := by
  cases e with
  | literal d => exact .literal d
  | builtin b => exact .builtin b
  | var x => exact .var (List.contains_iff_mem.1 h)
  | _ => cases h

/-- The values that a loop is entered anew with are ready where the names that are minted for
them are bound. -/
theorem Fixes.ready {Γ Ω : List Symbol} {s : Scope} {vs : List Operand}
    {temps : List (Symbol × Expr)} {values : List Expr} {ms : List Mark} {ns : List Mint}
    (h : Fixes Γ s vs temps values ms ns) (hbound : ∀ y ∈ s.bound, y ∈ Ω)
    (hvs : ∀ v ∈ vs, Clear x params v.code) (hns : ∀ n ∈ ns, n.symbol ≠ x) :
  values.length = vs.length ∧
    (∀ v ∈ values, Ready ((temps.map (·.1)).reverse ++ Ω) v ∧ Clear x params v) ∧
    ∀ b ∈ temps, Clear x params b.2
  := by
  induction h with
  | nil => exact ⟨rfl, List.forall_mem_nil _, List.forall_mem_nil _⟩
  | kept hfixed _ ih =>
    obtain ⟨hv, hvs⟩ := List.forall_mem_cons.1 hvs
    obtain ⟨hlength, hvalues, htemps⟩ := ih hvs hns
    refine ⟨congrArg _ hlength, List.forall_mem_cons.2 ⟨⟨?_, hv⟩, hvalues⟩, htemps⟩
    exact (Ready.of_isFixed hfixed).mono fun y hy => List.mem_append_right _ (hbound y hy)
  | named t _ _ ih =>
    obtain ⟨hv, hvs⟩ := List.forall_mem_cons.1 hvs
    obtain ⟨ht, hns⟩ := List.forall_mem_cons.1 hns
    obtain ⟨hlength, hvalues, htemps⟩ := ih hvs hns
    refine ⟨congrArg _ hlength, List.forall_mem_cons.2 ⟨⟨.var ?_, .var ht⟩, fun v hv => ?_⟩,
      List.forall_mem_cons.2 ⟨hv, htemps⟩⟩
    · rw [List.map_cons, List.reverse_cons]
      exact List.mem_append_left _ List.mem_concat_self
    · refine ⟨(hvalues v hv).1.mono ?_, (hvalues v hv).2⟩
      rw [List.map_cons, List.reverse_cons, List.append_assoc]
      exact List.append_subset.2 ⟨List.subset_append_left _ _,
        fun y hy => List.mem_append_right _ (List.mem_cons_of_mem _ hy)⟩

/-- The code that enters a loop anew does not enter it from elsewhere. -/
theorem Fixes.entered {Γ Ω : List Symbol} {s : Scope} {vs : List Operand} {head : Head}
    {temps : List (Symbol × Expr)} {values : List Expr} {ms : List Mark} {ns : List Mint}
    (h : Fixes Γ s vs temps values ms ns) (hs : Knows x params Ω s)
    (hhead : head.name = x → vs.length = params.length)
    (hvs : ∀ v ∈ vs, Clear x params v.code) (hns : ∀ n ∈ ns, n.symbol ≠ x) :
  Entered x params Ω 0 (.binding temps (reentryCall head.name values))
  := by
  obtain ⟨hlength, hvalues, htemps⟩ := h.ready hs.bound hvs hns
  apply Entered.binding_clear htemps
  by_cases hname : head.name = x
  · subst hname
    refine .reentry (hlength.trans (hhead rfl)) (fun v hv => (hvalues v hv).1) fun hmem => ?_
    exact (hvalues _ hmem).2.ne rfl
  · have hcall : Clear x params (.call (.var head.name) values) :=
      (Clear.var hname).call fun v hv => (hvalues v hv).2
    have hlambda : Clear x params (.lambda none [] (.call (.var head.name) values)) :=
      fun _ => .node nofun (.single (hcall _))
    exact (Clear.builtin .thunk).call (List.forall_mem_singleton.2 hlambda) _

/-- The call that enters a loop when its head has been minted, where the names of the loop are not
that of a head. -/
theorem Entered.entering {zs : List Symbol} (hzs : ∀ z ∈ zs, z ≠ x)
    (hparams : y = x → zs = params) :
  Entered x params Γ ([Mint.head y zs].count (.head x params)) (.call (.var y) (zs.map .var))
  := by
  by_cases heq : y = x
  · obtain rfl := hparams heq
    rw [heq, List.count_singleton_self]
    exact .entry fun hmem => hzs x hmem rfl
  · rw [List.count_singleton, beq_eq_false_iff_ne.2 fun h => heq (Mint.head.inj h).1]
    exact Clear.call (.var heq) (List.forall_mem_map.2 fun z hz => .var (hzs z hz)) _

/-- A minted name that is no head. -/
theorem count_name {ns : List Mint} :
  (Mint.name y :: ns).count (.head x params) = ns.count (.head x params)
  := by
  rw [List.count_cons_of_ne]
  exact nofun

/-- A minted name that is no head differs from one that is minted as a head only. -/
theorem Mint.name_ne (h : (Mint.name y).symbol = x → Mint.name y = .head x params) :
  y ≠ x
  := fun heq => Mint.noConfusion (h heq)

/-- No head is minted for the values that a loop is entered anew with. -/
theorem Fixes.count {Γ : List Symbol} {s : Scope} {vs : List Operand}
    {temps : List (Symbol × Expr)} {values : List Expr} {ms : List Mark} {ns : List Mint}
    (h : Fixes Γ s vs temps values ms ns) :
  ns.count (.head x params) = 0
  := by
  rw [List.count_eq_zero]
  intro hmem
  obtain ⟨m, hm, -⟩ := (h.headed : Headed [] ns) x params hmem
  cases hm

/-- The code of an awaited call refers to a head when its arguments do. -/
theorem await_clear {site : Site} {args : List Expr} {made : Expr}
    (h : await site args = .ok made) (hsuccess : site.success ≠ x) (hfailure : site.failure ≠ x)
    (hargs : ∀ a ∈ args, Clear x params a) :
  Clear x params made
  := by
  cases args with
  | nil => cases h
  | cons op rest =>
    cases h
    obtain ⟨hop, hrest⟩ := List.forall_mem_cons.1 hargs
    have hwrapped : ∀ (b : Builtin) (k : Symbol), k ≠ x →
        Clear x params (.call (.builtin b) [.var k]) := fun b k hk =>
      (Clear.builtin b).call (List.forall_mem_singleton.2 (.var hk))
    refine hop.call fun c hc => ?_
    rcases List.mem_append.1 hc with hc | hc
    · exact hrest c hc
    · rcases List.mem_cons.1 hc with rfl | hc
      · exact hwrapped _ _ hsuccess
      · obtain rfl := List.mem_singleton.1 hc
        exact hwrapped _ _ hfailure

/-- A value more, and a tree less to come. -/
theorem length_next {α β : Type} (vs : List α) (v : α) (es : List β) (e : β) :
  (vs ++ [v]).length + es.length = vs.length + (e :: es).length
  := by
  rw [List.length_append, List.length_singleton, List.length_cons, Nat.add_assoc,
    Nat.add_comm 1]

/-- The head of a loop is called once to enter the loop when it is minted, and otherwise from
thunks only. -/
theorem Derives.entered {body : Expr} (hx : ¬ body.Contains x) {job : Job} {out : Output}
    {ms : List Mark} {ns : List Mint} (h : Derives Table.default job out ms ns)
    (hjob : job.Within body) (hns : ∀ n ∈ ns, n.symbol = x → n = .head x params) :
  job.Entered x params out ns
  := by
  have hclear : ∀ {Γ e}, e.LiesIn Γ body → Clear x params e := fun h =>
    .of_not_contains fun hfound => hx (h.partOf.contains hfound)
  have hvalues : ∀ {Γ bs}, (∀ p ∈ placedBindings Γ bs, p.2.LiesIn p.1 body) →
      ∀ b ∈ bs, Clear x params b.2 := by
    intro Γ bs hbs b hb
    have hmem : b.2 ∈ (placedBindings Γ bs).map (·.2) := by
      rw [Expr.map_snd_placedBindings]
      exact List.mem_map_of_mem hb
    obtain ⟨p, hp, hvalue⟩ := List.mem_map.1 hmem
    exact hvalue ▸ hclear (hbs p hp)
  induction h with
  | copied hn => exact fun Ω hs => (hclear hjob Ω).send hs.success.1
  | ask hhandler hmade _ ih =>
    obtain rfl := handler_of_calledHandler? hhandler
    refine fun Ω hs => ih (fun c hc => hjob.child rfl c (List.mem_cons_of_mem _ hc)) hns Ω hs
      (List.forall_mem_nil _) fun Ω hs hvs _ _ => await_clear hmade hs.success.1 hs.failure.1 ?_ Ω
    exact List.forall_mem_map.2 hvs
  | call hn hnone _ ih =>
    refine fun Ω hs => ih (hjob.child rfl) hns Ω hs (List.forall_mem_nil _) fun Ω hs hvs _ _ => ?_
    obtain ⟨hv, hvs⟩ := List.forall_mem_cons.1 hvs
    exact (hv.call (List.forall_mem_map.2 hvs) Ω).send hs.success.1
  | cond hn _ _ _ ihyes ihno ih =>
    have hchildren := hjob.child rfl
    rw [Expr.children, List.forall_mem_cons, List.forall_mem_cons, List.forall_mem_singleton]
      at hchildren
    obtain ⟨htest, hyes, hno⟩ := hchildren
    refine fun Ω hs => ih (List.forall_mem_singleton.2 htest) hns Ω hs (List.forall_mem_nil _)
      fun Ω hs hvs _ hminted => ?_
    obtain ⟨hns₁, hns₂⟩ := List.forall_mem_append.1 hminted
    have hbranches := EnteredAll.cons (Δ := []) (ihyes hyes hns₁ Ω hs)
      (EnteredAll.single (Δ := []) (ihno hno hns₂ Ω hs))
    rw [List.count_append, ← Nat.zero_add (_ + _)]
    exact .node nofun (.cons (hvs _ List.mem_cons_self _) hbranches)
  | @seq Γ s es _ _ _ hn _ ih =>
    refine fun Ω hs => ih (hjob.child rfl) hns Ω ?_ hs (List.forall_mem_nil _)
    rintro hnil
    rw [List.append_nil] at hnil
    rw [hnil, needsLowering_seq] at hn
    cases hn
  | bind hn _ ih =>
    intro Ω hs
    have hcode := ih (.of_bind hjob) hns Ω 0 hs rfl
    rwa [Nat.zero_add] at hcode
  | @loop Γ s bs body' inner start _ _ ns₁ ns₂ y err hn _ _ ihbody ihstart =>
    intro Ω hs
    obtain ⟨hy, hns⟩ := List.forall_mem_cons.1 hns
    obtain ⟨hns₁, hns₂⟩ := List.forall_mem_append.1 hns
    obtain ⟨herr, hns₂⟩ := List.forall_mem_cons.1 hns₂
    have hnames : ∀ z ∈ bs.map (·.1), z ≠ x := fun z hz heq =>
      hx (heq ▸ hjob.contains_of_mem_binders hz)
    have hparams : y = x → bs.map (·.1) = params := fun heq => by
      injection hy heq
    have harity : y = x → bs.length = params.length := fun heq => by
      rw [← hparams heq, List.length_map]
    have hbody := ihbody (liesIn_of_loop hjob) hns₁ _
      ((hs.inLoop ⟨y, bs.length⟩ harity).binding (bs.map (·.1)))
    have hhead : Entered x params Ω (ns₁.count (.head x params))
        (.lambda (some y) (bs.map (·.1)) (guardedBy err inner s.failure)) := by
      refine .node nofun (.single (Entered.guardedBy (Mint.name_ne herr) hs.failure.1 ?_))
      rw [List.append_assoc]
      exact hbody
    have hstart := ihstart (.of_loop hjob _) hns₂ (y :: Ω) _ (hs.binding [y])
      (.entering hnames hparams)
    rw [← List.singleton_append, List.count_append, List.count_append, count_name,
      Nat.add_left_comm]
    exact .binding (.single hhead) hstart
  | @recur Γ s s' head args vs _ _ _ _ _ _ ns' hhead harity hfixes _ ih =>
    intro Ω hs
    refine ih (hjob.child rfl) hns Ω hs (List.forall_mem_nil _) fun Ω' hs' hvs hlength hminted => ?_
    change Entered x params Ω' (ns'.count _) _
    rw [hfixes.count]
    refine hfixes.entered hs' (fun hname => ?_) hvs fun n hn hsymbol => ?_
    · rw [← hs.head head hhead hname, ← harity]
      exact hlength.trans (Nat.zero_add _)
    · exact List.count_eq_zero.1 hfixes.count (hminted n hn hsymbol ▸ hn)
  | define hn _ ih =>
    refine fun Ω hs => ih (hjob.child rfl) hns Ω hs (List.forall_mem_nil _) fun Ω hs hvs _ _ => ?_
    exact (hvs _ List.mem_cons_self Ω).define.send hs.success.1
  | plain hn _ ih => exact fun Ω hs => ih (liesIn_of_protect hjob) hns Ω hs
  | @protect Γ s e c clauses cleanup last first _ _ _ _ _ _ err hn hlast hfirst _ ihlast ihfirst
      ihbody =>
    intro Ω hs
    obtain ⟨hns₁, hns⟩ := List.forall_mem_append.1 hns
    obtain ⟨hns₂, hns⟩ := List.forall_mem_append.1 hns
    obtain ⟨hns₃, herr⟩ := List.forall_mem_append.1 hns
    have herr : err ≠ x := Mint.name_ne (herr _ List.mem_cons_self)
    have houter := hs.binding (last.bindings.map (·.1))
    have hinner := houter.binding (first.bindings.map (·.1))
    obtain ⟨hlastSuccess, hlastFailure⟩ := hlast.landing_cleanup
      (P := fun z => z ≠ x ∧ z ∈ (last.bindings.map (·.1)).reverse ++ Ω)
      (fun z hz => ⟨Mint.name_ne (hns₁ _ (hlast.cleanup_names z hz)),
        List.mem_append_left _ (List.mem_reverse.2 hz)⟩)
      houter.success houter.failure
    obtain ⟨hfirstSuccess, hfirstFailure⟩ := hfirst.landing_clauses
      (P := fun z => z ≠ x ∧ z ∈ (first.bindings.map (·.1)).reverse ++
        ((last.bindings.map (·.1)).reverse ++ Ω))
      (fun z hz => ⟨Mint.name_ne (hns₂ _ (hfirst.clauses_names z hz)),
        List.mem_append_left _ (List.mem_reverse.2 hz)⟩)
      ⟨hlastSuccess.imp id (List.mem_append_right _),
        hlastFailure.imp id (List.mem_append_right _)⟩
    have hfirst := ihfirst (clausesWithin_of_protect hjob) hns₂ _ houter hlastSuccess hlastFailure
    have hbindings := EnteredAll.bindings_append
      (ihlast (cleanup_liesIn_of_protect hjob) hns₁ Ω hs) hfirst
    have hbody := ihbody (liesIn_of_protect hjob) hns₃ _
      (hinner.continuingWith hfirstSuccess hfirstFailure)
    have hguarded := hbody.guardedBy herr hfirstFailure.1
    rw [← List.append_assoc, ← List.reverse_append, ← List.map_append] at hguarded
    rw [List.count_append, List.count_append, List.count_append, count_name, List.count_nil,
      Nat.add_zero, ← Nat.add_assoc]
    exact .binding hbindings hguarded
  | receive k y err _ _ ih =>
    intro Ω n hs hk hc
    obtain ⟨herr, hns⟩ := List.forall_mem_cons.1 hns
    have hcode := ih hjob hns _ (hs.delivering hk)
    rw [count_name]
    exact .binding (.single (hc.continuation (Mint.name_ne herr) hs.failure.1)) hcode
  | finish hn =>
    intro Ω hs hvs hfinish
    refine hfinish Ω hs (List.forall_mem_append.2 ⟨hvs, ?_⟩) ?_ hns
    · exact List.forall_mem_map.2 fun e he => hclear (hjob e he)
    · rw [List.length_append, List.length_map]
  | suspended v k _ _ ihrest ih =>
    intro Ω hs hvs hfinish
    obtain ⟨he, hes⟩ := List.forall_mem_cons.1 hjob
    obtain ⟨hv, hns⟩ := List.forall_mem_cons.1 hns
    obtain ⟨hns₁, hns₂⟩ := List.forall_mem_append.1 hns
    obtain ⟨hk, hns₂⟩ := List.forall_mem_cons.1 hns₂
    have hv' : Clear x params (Operand.minted v).code := .var (Mint.name_ne hv)
    have hvs := List.forall_mem_append.2 ⟨hvs, List.forall_mem_singleton.2 hv'⟩
    have hrest := ihrest hes hns₁ _ (hs.binding [v]) hvs fun Ω hs hvs hlength =>
      hfinish Ω hs hvs (hlength.trans (length_next _ _ _ _))
    rw [count_name, List.count_append, count_name]
    exact ih he hns₂ Ω _ hs (Mint.name_ne hk) hrest
  | @kept Γ s values e _ _ _ _ _ hn _ hfixed _ ih =>
    intro Ω hs hvs hfinish
    obtain ⟨he, hes⟩ := List.forall_mem_cons.1 hjob
    have he' : Clear x params (Operand.tree e).code := hclear he
    have hvs := List.forall_mem_append.2 ⟨hvs, List.forall_mem_singleton.2 he'⟩
    exact ih hes hns Ω hs hvs fun Ω hs hvs hlength =>
      hfinish Ω hs hvs (hlength.trans (length_next _ _ _ _))
  | named t hn _ _ _ ih =>
    intro Ω hs hvs hfinish
    obtain ⟨he, hes⟩ := List.forall_mem_cons.1 hjob
    obtain ⟨ht, hns⟩ := List.forall_mem_cons.1 hns
    have ht' : Clear x params (Operand.minted t).code := .var (Mint.name_ne ht)
    have hvs := List.forall_mem_append.2 ⟨hvs, List.forall_mem_singleton.2 ht'⟩
    rw [count_name]
    refine .binding_clear (List.forall_mem_singleton.2 (hclear he)) ?_
    exact ih hes hns _ (hs.binding [t]) hvs fun Ω hs hvs hlength =>
      hfinish Ω hs hvs (hlength.trans (length_next _ _ _ _))
  | sequence hn =>
    intro Ω hne hs hmade
    refine Entered.send hs.success.1 (.block hne (.clear (List.forall_mem_map.2 ?_)))
    exact List.forall_mem_append.2 ⟨fun e he => hclear (hjob e he), hmade⟩
  | sequenceLast hn _ _ ih =>
    intro Ω _ hs _
    obtain ⟨hbefore, he⟩ := List.forall_mem_append.1 hjob
    exact .block_clear (fun b hb => hclear (hbefore b hb)) (ih (he _ List.mem_cons_self) hns Ω hs)
  | sequenceMore k ignored hn hne _ _ ihafter ih =>
    intro Ω _ hs hmade
    obtain ⟨hbefore, hes⟩ := List.forall_mem_append.1 hjob
    obtain ⟨he, hes⟩ := List.forall_mem_cons.1 hes
    obtain ⟨hk, hns⟩ := List.forall_mem_cons.1 hns
    obtain ⟨-, hns⟩ := List.forall_mem_cons.1 hns
    obtain ⟨hns₁, hns₂⟩ := List.forall_mem_append.1 hns
    have hafter := ihafter hes hns₁ _ hne (hs.binding [ignored]) hmade
    rw [count_name, count_name, List.count_append]
    exact .block_clear (fun b hb => hclear (hbefore b hb))
      (ih he hns₂ Ω _ hs (Mint.name_ne hk) hafter)
  | bindingsValue hn _ ih =>
    rintro Ω n hs rfl
    rw [Nat.zero_add]
    exact .binding_clear (hvalues hjob.values) (ih hjob.tail hns _ (hs.binding _))
  | bindingsCode hn => exact fun Ω n hs htail => .binding_clear (hvalues hjob.values) htail
  | @bindingsMore Γ s before bs z e after code tail _ _ ns₁ ns₂ k hn _ _ ihafter ih =>
    intro Ω n hs htail
    obtain ⟨hns₁, hns₂⟩ := List.forall_mem_append.1 hns
    obtain ⟨hk, hns₂⟩ := List.forall_mem_cons.1 hns₂
    have hnames : ((before ++ (z, e) :: bs).map (·.1)).reverse ++ Ω =
        (bs.map (·.1)).reverse ++ (z :: ((before.map (·.1)).reverse ++ Ω)) := by
      rw [List.map_append, List.map_cons, List.reverse_append, List.reverse_cons,
        List.append_assoc, List.append_assoc]
      rfl
    rw [hnames] at htail
    have hbefore := hs.binding (before.map (·.1))
    have hafter := ihafter hjob.rest hns₁ _ n (hbefore.binding [z]) htail
    have hcode := ih hjob.value hns₂ _ _ hbefore (Mint.name_ne hk) hafter
    have hvalues := hvalues hjob.values
    rw [List.forall_mem_append] at hvalues
    rw [List.count_append, count_name, ← Nat.add_assoc]
    exact .binding_clear hvalues.1 hcode
  | noCleanup | noBodies => exact fun Ω hs => .nil
  | noClauses => exact fun Ω hs _ _ => .nil
  | cleanup k v g f err g' _ _ ihvalue iherror =>
    intro Ω hs
    have he : ∀ d ∈ [_], Expr.LiesIn _ d body := List.forall_mem_singleton.2 (hjob _ rfl)
    obtain ⟨hk, hns⟩ := List.forall_mem_cons.1 hns
    obtain ⟨hv, hns⟩ := List.forall_mem_cons.1 hns
    obtain ⟨hns₁, hns⟩ := List.forall_mem_append.1 hns
    obtain ⟨hg, hns⟩ := List.forall_mem_cons.1 hns
    obtain ⟨hf, hns⟩ := List.forall_mem_cons.1 hns
    obtain ⟨herr, hns⟩ := List.forall_mem_cons.1 hns
    obtain ⟨hns₂, hg'⟩ := List.forall_mem_append.1 hns
    have hg' := hg' _ List.mem_cons_self
    have hvalue := ihvalue he hns₁ _ (List.cons_ne_nil _ _) (hs.binding [v])
      (List.forall_mem_singleton.2 (.var (Mint.name_ne hv)))
    have herror := iherror he hns₂ _ (List.cons_ne_nil _ _) ((hs.around [k]).binding [err])
      (List.forall_mem_singleton.2 (.raising (Mint.name_ne herr)))
    rw [count_name, count_name, List.count_append, count_name, count_name, count_name,
      List.count_append, count_name, List.count_nil, Nat.add_zero]
    exact .cons (hvalue.continuation (Mint.name_ne hg) hs.failure.1)
      (.single (herror.continuation (Mint.name_ne hg') hs.failure.1))
  | clauses f err g _ _ ih =>
    intro Ω hs hsuccess hfailure
    obtain ⟨-, hns⟩ := List.forall_mem_cons.1 hns
    obtain ⟨herr, hns⟩ := List.forall_mem_cons.1 hns
    obtain ⟨hns, hg⟩ := List.forall_mem_append.1 hns
    have hg := hg _ List.mem_cons_self
    have hbodies := ih hjob hns _ ((hs.around [err]).continuingWith
      (hsuccess.imp id (List.mem_append_right _)) (hfailure.imp id (List.mem_append_right _)))
    rw [count_name, count_name, List.count_append, count_name, List.count_nil, Nat.add_zero]
    exact .single ((Entered.selection (Mint.name_ne herr) hbodies).continuation
      (Mint.name_ne hg) hfailure.1)
  | bodies _ _ ihbody ihrest =>
    intro Ω hs
    obtain ⟨⟨-, he⟩, hclauses⟩ := List.forall_mem_cons.1 hjob
    obtain ⟨hns₁, hns₂⟩ := List.forall_mem_append.1 hns
    rw [List.count_append]
    exact .cons (.node nofun (.single (ihbody he hns₁ _ (hs.binding [_]))))
      (ihrest hclauses hns₂ Ω hs)

/-- When a whole body is compiled, the head of a loop is called once to enter the loop, and
otherwise from thunks only. -/
theorem Compiles.entered {body code : Expr} {ms : List Mark} {ns : List Mint}
    (hx : ¬ body.Contains x) (h : Compiles Table.default body code ms ns)
    (hns : ∀ n ∈ ns, n.symbol = x → n = .head x params) :
  Entered x params [] (ns.count (.head x params)) code
  := by
  cases h with
  | mk success failure h =>
    obtain ⟨hsuccess, hns⟩ := List.forall_mem_cons.1 hns
    obtain ⟨hfailure, hns⟩ := List.forall_mem_cons.1 hns
    have hknows : Knows x params [failure, success] (.ofContinuations success failure) :=
      { bound := fun _ hy => hy
        success := ⟨Mint.name_ne hsuccess, List.mem_cons_of_mem _ List.mem_cons_self⟩
        failure := ⟨Mint.name_ne hfailure, List.mem_cons_self⟩
        head := nofun }
    rw [count_name, count_name]
    exact .node nofun (.single (h.entered hx (.refl body) hns _ hknows))

end Skein.Coroutine
