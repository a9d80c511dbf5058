import Skein.Proofs.Derivation

/-!
# The trees of a body

All trees that are lowered in the course of lowering a body lie in the body, at the place that
their job says.  This is carried through a derivation by showing, for each rule, that it holds
of the parts when it holds of the whole.
-/

namespace Skein

open Expr (placedBindings)

variable {body c d e : Expr} {bs : List (Symbol × Expr)} {Γ : List Symbol}

namespace Expr

/-- A place inside of a part of a tree. -/
theorem LiesIn.placed {Δ : List Symbol} (h : e.LiesIn Γ body) (hd : (Δ, d) ∈ e.placed) :
  d.LiesIn (Δ ++ Γ) body
  := (liesIn_of_mem_placed hd).trans h

/-- The children of a tree that binds no names lie where it lies. -/
theorem LiesIn.child (h : e.LiesIn Γ body) (hplaced : e.placed = e.children.map fun c => ([], c)) :
  ∀ c ∈ e.children, c.LiesIn Γ body
  := fun _ hc => (liesIn_of_placed hplaced hc).trans h

/-- The initial values of the bindings of a tree. -/
theorem LiesIn.bindings (h : e.LiesIn Γ body) (hbs : placedBindings [] bs ⊆ e.placed) :
  ∀ p ∈ placedBindings Γ bs, p.2.LiesIn p.1 body
  := by
  intro p hp
  have hplaced := placedBindings_append [] Γ bs
  rw [List.nil_append] at hplaced
  rw [hplaced, List.mem_map] at hp
  obtain ⟨⟨Δ, d⟩, hp, rfl⟩ := hp
  exact h.placed (hbs hp)

/-- The names that a tree binds are found where it lies. -/
theorem LiesIn.contains_of_mem_binders {x : Symbol} (h : e.LiesIn Γ body) (hx : x ∈ e.binders) :
  body.Contains x
  := h.partOf.contains_of_mem_binders hx

end Expr

namespace Coroutine

variable {s : Scope} {clauses : List (Clause Expr)} {cleanup : Option Expr} {tail : Tail}

/-- What some bindings end in lies in a body, when it is still to be lowered. -/
def Tail.Within (body : Expr) (Γ : List Symbol) : Tail → Prop
  | .value e => e.LiesIn Γ body
  | .code _ => True

/-- Bindings, and what they end in, lie in a body. -/
structure BindingsWithin (body : Expr) (Γ : List Symbol) (bs : List (Symbol × Expr))
    (tail : Tail) : Prop where
  names : ∀ x ∈ bs.map (·.1), body.Contains x
  values : ∀ p ∈ placedBindings Γ bs, p.2.LiesIn p.1 body
  tail : tail.Within body ((bs.map (·.1)).reverse ++ Γ)

/-- Clauses lie in a body. -/
def ClausesWithin (body : Expr) (Γ : List Symbol) (clauses : List (Clause Expr)) : Prop :=
  ∀ c ∈ clauses, body.Contains c.var ∧ c.body.LiesIn (c.var :: Γ) body

/-- What is to be lowered lies in a body. -/
def Job.Within (body : Expr) : Job → Prop
  | .tree Γ _ e | .receive Γ _ e .. => e.LiesIn Γ body
  | .inOrder Γ _ _ es _ | .sequence Γ _ es _ => ∀ e ∈ es, e.LiesIn Γ body
  | .bindings Γ _ bs tail => BindingsWithin body Γ bs tail
  | .cleanup Γ _ cleanup => ∀ e ∈ cleanup, e.LiesIn Γ body
  | .clauses Γ _ _ clauses | .bodies Γ _ clauses => ClausesWithin body Γ clauses

/-! ### Parts of what is lowered -/

/-- The bindings of a tree. -/
theorem BindingsWithin.of_bind (h : (Expr.bind bs e).LiesIn Γ body) :
  BindingsWithin body Γ bs (.value e)
  where
  names _ hx := h.contains_of_mem_binders hx
  values := h.bindings (List.subset_append_left _ _)
  tail := h.placed (List.mem_append_right _ List.mem_cons_self)

/-- The bindings of a loop. -/
theorem BindingsWithin.of_loop (h : (Expr.loop bs e).LiesIn Γ body) (code : Expr) :
  BindingsWithin body Γ bs (.code code)
  where
  names _ hx := h.contains_of_mem_binders hx
  values := h.bindings (List.subset_append_left _ _)
  tail := trivial

/-- The body of a loop. -/
theorem liesIn_of_loop (h : (Expr.loop bs e).LiesIn Γ body) :
  e.LiesIn ((bs.map (·.1)).reverse ++ Γ) body
  := h.placed (List.mem_append_right _ List.mem_cons_self)

/-- The initial value of a binding after others. -/
theorem BindingsWithin.value {before : List (Symbol × Expr)} {x : Symbol}
    (h : BindingsWithin body Γ (before ++ (x, e) :: bs) tail) :
  e.LiesIn ((before.map (·.1)).reverse ++ Γ) body
  := by
  apply h.values ((before.map (·.1)).reverse ++ Γ, e)
  rw [Expr.placedBindings_concat]
  exact List.mem_append_right _ List.mem_cons_self

/-- The bindings after some others. -/
theorem BindingsWithin.rest {before : List (Symbol × Expr)} {x : Symbol}
    (h : BindingsWithin body Γ (before ++ (x, e) :: bs) tail) :
  BindingsWithin body (x :: ((before.map (·.1)).reverse ++ Γ)) bs tail
  where
  names y hy := h.names y (by
    rw [List.map_append]
    exact List.mem_append_right _ (List.mem_cons_of_mem _ hy))
  values p hp := h.values p (by
    rw [Expr.placedBindings_concat]
    exact List.mem_append_right _ (List.mem_cons_of_mem _ hp))
  tail := by
    have htail := h.tail
    rw [List.map_append, List.map_cons, List.reverse_append, List.reverse_cons,
      List.append_assoc, List.append_assoc] at htail
    exact htail

/-- The body of a protected body. -/
theorem liesIn_of_protect (h : (Expr.protect e clauses cleanup).LiesIn Γ body) :
  e.LiesIn Γ body
  := h.placed List.mem_cons_self

/-- The clauses of a protected body. -/
theorem clausesWithin_of_protect (h : (Expr.protect e clauses cleanup).LiesIn Γ body) :
  ClausesWithin body Γ clauses
  := by
  intro c hc
  refine ⟨h.contains_of_mem_binders (List.mem_map_of_mem hc), ?_⟩
  apply h.placed (Δ := [c.var]) (List.mem_cons_of_mem _ (List.mem_append_left _ ?_))
  exact List.mem_map.2 ⟨c, hc, rfl⟩

/-- The cleanup of a protected body. -/
theorem cleanup_liesIn_of_protect (h : (Expr.protect e clauses cleanup).LiesIn Γ body) :
  ∀ d ∈ cleanup, d.LiesIn Γ body
  := by
  intro d hd
  apply h.placed (Δ := []) (List.mem_cons_of_mem _ (List.mem_append_right _ ?_))
  exact List.mem_map.2 ⟨d, Option.mem_toList.2 hd, rfl⟩

/-! ### Heads of loops -/

/-- Every head that is minted is that of a marked loop. -/
def Headed (ms : List Mark) (ns : List Mint) : Prop :=
  ∀ x params, .head x params ∈ ns → ∃ m ∈ ms, m.act = .head x params

namespace Headed

variable {Δ : List Symbol} {x : Symbol} {m : Mark} {ms ms' : List Mark} {ns ns' : List Mint}

/-- No heads. -/
theorem nil : Headed ms [] := nofun

/-- A name that is no head. -/
theorem name (h : Headed ms ns) :
  Headed ms (.name x :: ns)
  := by
  intro y params hy
  exact h y params ((List.mem_cons.1 hy).resolve_left nofun)

/-- A name that is no head, between others. -/
theorem between (h : Headed ms (ns ++ ns')) :
  Headed ms (ns ++ .name x :: ns')
  := by
  intro y params hy
  apply h y params
  rw [List.mem_append, List.mem_cons] at hy
  exact List.mem_append.2 (hy.imp_right (·.resolve_left nofun))

/-- More marks. -/
theorem mono (h : Headed ms ns) (hms : ms ⊆ ms') :
  Headed ms' ns
  := by
  intro x params hx
  obtain ⟨m, hm, hact⟩ := h x params hx
  exact ⟨m, hms hm, hact⟩

/-- More heads. -/
theorem both (h : Headed ms ns) (h' : Headed ms ns') :
  Headed ms (ns ++ ns')
  := fun x params hx => (List.mem_append.1 hx).elim (h x params) (h' x params)

/-- Heads and marks on both sides. -/
theorem append (h : Headed ms ns) (h' : Headed ms' ns') :
  Headed (ms ++ ms') (ns ++ ns')
  := (h.mono (List.subset_append_left _ _)).both (h'.mono (List.subset_append_right _ _))

/-- Marks in a part of the code. -/
theorem under (h : Headed ms ns) :
  Headed (under Δ ms) ns
  := by
  intro x params hx
  obtain ⟨m, hm, hact⟩ := h x params hx
  exact ⟨_, List.mem_map_of_mem hm, hact⟩

end Headed

/-- The heads that a derivation mints are those of the loops that it marks, when those that are
minted in the end are. -/
def Job.Headed (ms : List Mark) (ns : List Mint) : Job → Prop
  | .receive _ _ _ _ _ _ given =>
    ∀ ns', Coroutine.Headed given ns' → Coroutine.Headed ms (ns' ++ ns)
  | .inOrder _ _ _ _ finish =>
    Coroutine.Headed finish.marks finish.minted → Coroutine.Headed ms ns
  | _ => Coroutine.Headed ms ns

/-- No heads are minted for the values that a loop is entered anew with. -/
theorem Fixes.headed {vs : List Operand} {temps : List (Symbol × Expr)} {values : List Expr}
    {ms ms' : List Mark} {ns : List Mint} (h : Fixes Γ s vs temps values ms ns) :
  Headed ms' ns
  := by
  induction h with
  | nil => exact .nil
  | kept _ _ ih => exact ih
  | named t _ _ ih => exact ih.name

/-- The heads that are minted are those of the loops that are marked. -/
theorem Derives.headed {table : Table} {job : Job} {out : Output} {ms : List Mark}
    {ns : List Mint} (h : Derives table job out ms ns) :
  job.Headed ms ns
  := by
  induction h with
  | copied | sequence | bindingsCode | noCleanup | noClauses | noBodies => exact Headed.nil
  | ask _ _ _ ih | call _ _ _ ih | define _ _ ih => exact ih .nil
  | cond _ _ _ _ ihyes ihno ih =>
    exact ih ((Headed.append ihyes ihno).mono (List.subset_append_right _ _))
  | seq _ _ ih | bind _ _ ih | plain _ _ ih => exact ih
  | @loop Γ s bs _ _ _ ms₁ ms₂ _ _ x e _ _ _ ihbody ihstart =>
    intro y params hy
    rcases List.mem_cons.1 hy with heq | hy
    · cases heq
      exact ⟨_, List.mem_cons_self, rfl⟩
    · have hbody : Headed (under ((bs.map (·.1)).reverse ++ [x]) ms₁) _ := Headed.under ihbody
      have hstart : Headed (under [x] ms₂) _ := Headed.under (Headed.name (x := e) ihstart)
      exact (hbody.append hstart).mono (List.subset_cons_self _ _) y params hy
  | recur _ _ hfixes _ ih => exact ih hfixes.headed
  | protect e _ _ _ _ ihlast ihfirst ihbody =>
    refine Headed.append ihlast (Headed.append (Headed.under ihfirst) ?_)
    exact Headed.both (Headed.under ihbody) (Headed.name .nil)
  | receive k x err _ _ ih =>
    intro ns' hns'
    exact Headed.append hns'.under (Headed.under (Headed.name ih))
  | finish => exact id
  | suspended v k _ _ ihrest ih =>
    exact fun hfinish => (ih _ (ihrest hfinish)).between.name
  | kept _ _ _ _ ih => exact fun hfinish => (ih hfinish).mono (List.subset_cons_self _ _)
  | named t _ _ _ _ ih =>
    exact fun hfinish => ((ih hfinish).under.mono (List.subset_cons_self _ _)).name
  | sequenceLast _ _ _ ih => exact Headed.mono ih (List.subset_append_right _ _)
  | sequenceMore k ignored _ _ _ _ ihafter ih =>
    exact ((ih _ ihafter).mono (List.subset_append_right _ _)).name.name
  | bindingsValue _ _ ih => exact (Headed.under ih).mono (List.subset_append_right _ _)
  | bindingsMore k _ _ _ ihafter ih =>
    exact (ih _ ihafter).between.under.mono (List.subset_append_right _ _)
  | cleanup k v g f err g' _ _ ihvalue iherror =>
    refine (Headed.append (Headed.under ihvalue) ?_).name.name
    exact ((Headed.under iherror).both (Headed.name .nil)).name.name.name
  | clauses f err g _ _ ih => exact ((Headed.under ih).both (Headed.name .nil)).name.name
  | bodies _ _ ihbody ihrest => exact Headed.append (Headed.under ihbody) ihrest

/-- The heads that are minted when a whole body is compiled are those of its marked loops. -/
theorem Compiles.headed {table : Table} {code : Expr} {ms : List Mark} {ns : List Mint}
    (h : Compiles table body code ms ns) :
  Headed ms ns
  := by
  cases h with
  | mk success failure h => exact (Headed.under h.headed).name.name

end Coroutine

end Skein
