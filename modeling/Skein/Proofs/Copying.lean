import Skein.Proofs.Derivation.Handlers
import Skein.Proofs.Derivation.Lowering
import Skein.Proofs.Rewriting
import Skein.Proofs.Spared

/-!
# Selective copying

The trees that are spared by lowering are copied as they are.  A spared tree is copied once, or
twice for every cleanup that it is in, since a lowered cleanup runs after a value and after an
error.  Nothing else of the tree is left in the code, and what is put around the copies are
references to names of the lowering itself and a few functions that the code holds.
-/

namespace Skein.Coroutine

/-! ### Copies in a derivation -/

section copies

variable {table : Table} {w : Expr → Nat} {s : Scope} {e : Expr} {es : List Expr}

/-- What the copies of a tree weigh that is handed over in a scope. -/
def copyWeight (table : Table) (w : Expr → Nat) (s : Scope) (e : Expr) : Nat :=
  Task.copyWeight table w ⟨e, s.head.isSome, 0⟩

/-- What the copies of some trees weigh. -/
def copyWeights (table : Table) (w : Expr → Nat) (s : Scope) (es : List Expr) : Nat :=
  (es.map (copyWeight table w s)).sum

@[simp]
theorem copyWeights_nil : copyWeights table w s [] = 0 := rfl

@[simp]
theorem copyWeights_cons :
  copyWeights table w s (e :: es) = copyWeight table w s e + copyWeights table w s es
  := List.sum_cons

@[simp]
theorem copyWeights_append {ds : List Expr} :
  copyWeights table w s (es ++ ds) = copyWeights table w s es + copyWeights table w s ds
  := by
  rw [copyWeights, List.map_append, List.sum_append]
  rfl

/-- What is copied of a tree depends on the loop around it only. -/
theorem copyWeight_congr {s' : Scope} (h : s'.head = s.head) (e : Expr) :
  copyWeight table w s' e = copyWeight table w s e
  := by
  rw [copyWeight, h]
  rfl

@[simp]
theorem copyWeight_binding (names : List Symbol) (e : Expr) :
  copyWeight table w (s.binding names) e = copyWeight table w s e
  := rfl

@[simp]
theorem copyWeights_binding (names : List Symbol) (es : List Expr) :
  copyWeights table w (s.binding names) es = copyWeights table w s es
  := rfl

@[simp]
theorem copyWeight_delivering (k : Symbol) (e : Expr) :
  copyWeight table w (s.delivering k) e = copyWeight table w s e
  := rfl

@[simp]
theorem copyWeight_continuingWith (k f : Symbol) (e : Expr) :
  copyWeight table w (s.continuingWith k f) e = copyWeight table w s e
  := rfl

@[simp]
theorem copyWeights_continuingWith (k f : Symbol) (es : List Expr) :
  copyWeights table w (s.continuingWith k f) es = copyWeights table w s es
  := rfl

/-- A tree that needs no lowering is copied. -/
theorem copyWeight_of_not_needs (h : needsLowering table s e = false) :
  copyWeight table w s e = w e
  := by
  have hneeds : Task.needs table ⟨e, s.head.isSome, 0⟩ = false := h
  exact (Task.copyWeight_of_not_needs hneeds).trans (Nat.one_mul _)

/-- Trees that need no lowering are copied. -/
theorem copyWeights_of_not_needs (h : ∀ e ∈ es, needsLowering table s e = false) :
  copyWeights table w s es = (es.map w).sum
  := congrArg List.sum (List.map_congr_left fun e he => copyWeight_of_not_needs (h e he))

/-- Initial values that need no lowering are copied. -/
theorem copyWeights_values_of_not_needs {bs : List (Symbol × Expr)}
    (h : ∀ b ∈ bs, needsLowering table s b.2 = false) :
  copyWeights table w s (bs.map (·.2)) = (bs.map fun b => w b.2).sum
  := by
  rw [copyWeights_of_not_needs, List.map_map]
  · rfl
  · intro e he
    obtain ⟨b, hb, rfl⟩ := List.mem_map.1 he
    exact h b hb

/-- The copies of a tree that has to be lowered are those of the trees that it is split into. -/
theorem copyWeight_of_needs (h : needsLowering table s e = true) :
  copyWeight table w s e =
    ((Task.split table ⟨e, s.head.isSome, 0⟩).map (Task.copyWeight table w)).sum
  := by
  have hneeds : Task.needs table ⟨e, s.head.isSome, 0⟩ = true := h
  exact Task.copyWeight_of_needs hneeds

/-- The copies of a tree that is split into its children. -/
theorem copyWeight_children (h : needsLowering table s e = true)
    (hsplit : Task.split table ⟨e, s.head.isSome, 0⟩ = e.children.map (⟨·, s.head.isSome, 0⟩)) :
  copyWeight table w s e = copyWeights table w s e.children
  := by
  rw [copyWeight_of_needs h, hsplit, List.map_map]
  rfl

/-- A re-entry of a lowered loop has to be lowered. -/
theorem needsLowering_recur {head : Head} {args : List Expr} (h : s.head = some head) :
  needsLowering table s (.recur args) = true
  := by
  rw [needsLowering, h, Expr.recurs_eq, Expr.isRecur]
  exact Bool.or_true _

/-- The copies of the call of a breakpoint are those of its arguments. -/
theorem copyWeight_ask {f : Expr} {args : List Expr} {op : Symbol} {handler : Handler}
    (hhandler : calledHandler? table f = some (op, handler)) :
  copyWeight table w s (.call f args) = copyWeights table w s args
  := by
  have hneeds : needsLowering table s (.call f args) = true := by
    obtain ⟨rfl, hhas⟩ := has_of_calledHandler? hhandler
    rw [needsLowering, Expr.reaches_eq, Expr.calledBreakpoint?, if_pos hhas]
    rfl
  rw [copyWeight_of_needs hneeds, Task.split, hhandler, Option.isSome_some, if_pos rfl,
    List.map_map]
  rfl

/-- The copies of any other call. -/
theorem copyWeight_call {f : Expr} {args : List Expr}
    (h : needsLowering table s (.call f args) = true) (hnone : calledHandler? table f = none) :
  copyWeight table w s (.call f args) = copyWeights table w s (f :: args)
  := by
  apply copyWeight_children h
  rw [Task.split, hnone]
  rfl

/-- The copies of a loop: those of its body are made under its head. -/
theorem copyWeight_loop {bs : List (Symbol × Expr)} (head : Head)
    (h : needsLowering table s (.loop bs e) = true) :
  copyWeight table w s (.loop bs e) =
    copyWeights table w s (bs.map (·.2)) + copyWeight table w (s.inLoop head) e
  := by
  rw [copyWeight_of_needs h, Task.split, List.map_append, List.sum_append, List.map_map,
    copyWeights, List.map_map]
  rfl

/-- The copies of a protected body, where those of the cleanup are made twice. -/
theorem copyWeight_protect {clauses : List (Clause Expr)} {cleanup : Option Expr}
    (h : needsLowering table s (.protect e clauses cleanup) = true) :
  copyWeight table w s (.protect e clauses cleanup) =
    copyWeight table w s e + copyWeights table w s (clauses.map (·.body)) +
      2 * copyWeights table w s cleanup.toList
  := by
  have hcleanup : ((cleanup.toList.map fun d => (⟨d, s.head.isSome, 0⟩ : Task).deeper).map
      (Task.copyWeight table w)).sum = 2 * copyWeights table w s cleanup.toList := by
    rw [copyWeights, ← List.sum_map_mul_left cleanup.toList (copyWeight table w s) 2, List.map_map]
    apply congrArg List.sum
    exact List.map_congr_left fun d _ => Task.copyWeight_deeper table w _
  rw [List.map_map] at hcleanup
  rw [copyWeight_of_needs h, Task.split, List.map_append, List.sum_append, List.map_cons,
    List.sum_cons, List.map_map, List.map_map, ← hcleanup, copyWeights, List.map_map]
  rfl

/-- A value that is used may be the copy of a tree. -/
def Operand.weight (w : Expr → Nat) : Operand → Nat
  | tree e => w e
  | minted _ => 0

/-- What the values that are used weigh. -/
def weightAll (w : Expr → Nat) (vs : List Operand) : Nat := (vs.map (·.weight w)).sum

@[simp]
theorem weightAll_nil : weightAll w [] = 0 := rfl

@[simp]
theorem weightAll_cons {v : Operand} {vs : List Operand} :
  weightAll w (v :: vs) = v.weight w + weightAll w vs
  := List.sum_cons

@[simp]
theorem weightAll_append {vs vs' : List Operand} :
  weightAll w (vs ++ vs') = weightAll w vs + weightAll w vs'
  := by
  rw [weightAll, List.map_append, List.sum_append]
  rfl

/-- A tree is copied where its value is used. -/
theorem weigh_copies {v : Operand} {Γ : List Symbol} :
  weigh w (v.copies Γ) = v.weight w
  := by
  cases v with
  | tree e => exact weigh_copied e
  | minted x => rfl

/-- Trees are copied where their values are used. -/
theorem weigh_copiesAll {vs : List Operand} {Γ : List Symbol} :
  weigh w (vs.flatMap (·.copies Γ)) = weightAll w vs
  := by
  induction vs with
  | nil => rfl
  | cons v vs ih => rw [List.flatMap_cons, weigh_append, weigh_copies, ih]; rfl

/-- The values that a loop is entered anew with are copied. -/
theorem Fixes.weigh {Γ : List Symbol} {vs : List Operand} {temps : List (Symbol × Expr)}
    {values : List Expr} {ms : List Mark} {ns : List Mint}
    (h : Fixes Γ s vs temps values ms ns) :
  Coroutine.weigh w ms = weightAll w vs
  := by
  induction h with
  | nil => rfl
  | kept _ _ ih => rw [weigh_append, weigh_under, weigh_copies, ih]; rfl
  | named t _ _ ih => rw [weigh_append, weigh_under, weigh_copies, ih]; rfl

/-- What is left of a tail to be lowered. -/
def Tail.trees : Tail → List Expr
  | value e => [e]
  | code _ => []

/-- What the copies weigh that a derivation makes, besides those that there are already and those
that are made in the end. -/
def Job.Copies (table : Table) (w : Expr → Nat) (ms : List Mark) : Job → Prop
  | .tree _ s e => weigh w ms = copyWeight table w s e
  | .receive _ s e _ _ _ given => weigh w ms = weigh w given + copyWeight table w s e
  | .inOrder _ s values es finish => finish.scope.head = s.head ∧
    weigh w ms + weightAll w finish.values =
      weigh w finish.marks + (weightAll w values + copyWeights table w s es)
  | .sequence _ s es _ => weigh w ms = copyWeights table w s es
  | .bindings _ s bs tail =>
    weigh w ms = copyWeights table w s (bs.map (·.2)) + copyWeights table w s tail.trees
  | .cleanup _ s c => weigh w ms = 2 * copyWeights table w s c.toList
  | .clauses _ s _ cs | .bodies _ s cs => weigh w ms = copyWeights table w s (cs.map (·.body))

/-- A derivation copies the spared trees. -/
theorem Derives.copies {job : Job} {out : Output} {ms : List Mark} {ns : List Mint}
    (h : Derives table job out ms ns) (w : Expr → Nat) :
  job.Copies table w ms
  := by
  induction h with
  | copied hn => exact Eq.trans (weigh_copied _) (copyWeight_of_not_needs (w := w) hn).symm
  | @ask Γ s _ f args _ _ _ _ _ _ _ hhandler _ _ ih =>
    obtain ⟨-, hms⟩ := ih
    have hcall : copyWeight table w s (.call f args) = _ := copyWeight_ask hhandler
    simp only [Job.Copies, hcall, weigh_ask, weigh_copiesAll, weightAll_nil] at hms ⊢
    omega
  | call hn hnone _ ih =>
    obtain ⟨-, hms⟩ := ih
    simp only [Job.Copies, copyWeight_call hn hnone, weigh_copiesAll, weightAll_nil] at hms ⊢
    omega
  | @cond Γ s s' _ _ _ _ _ _ _ _ _ _ _ _ _ hn _ _ _ ihyes ihno ih =>
    obtain ⟨(hhead : s'.head = s.head), hms⟩ := ih
    simp only [Job.Copies, copyWeight_congr hhead] at ihyes ihno
    simp only [Job.Copies, copyWeight_children hn rfl, Expr.children, weigh_append, weigh_copies,
      copyWeights_cons, copyWeights_nil, weightAll_cons, weightAll_nil] at hms ⊢
    omega
  | seq hn _ ih => exact ih.trans (copyWeight_children hn rfl).symm
  | bind hn _ ih =>
    simp only [Job.Copies, copyWeight_children hn rfl, Expr.children, copyWeights_append] at ih ⊢
    exact ih
  | @loop Γ s bs body _ _ _ _ _ _ x e hn _ _ ihbody ihstart =>
    have hloop : copyWeight table w s (.loop bs body) = _ :=
      copyWeight_loop ⟨x, bs.length⟩ hn
    simp only [Job.Copies, Tail.trees, copyWeights_nil, copyWeights_binding, copyWeight_binding,
      hloop, weigh_head, weigh_append, weigh_under] at ihbody ihstart ⊢
    omega
  | @recur _ s _ _ args _ _ _ _ _ _ _ _ hhead _ hfixes _ ih =>
    obtain ⟨-, hms⟩ := ih
    have hneeds : needsLowering table s (.recur args) = true := needsLowering_recur hhead
    simp only [Job.Copies, copyWeight_children hneeds rfl, Expr.children, weigh_append,
      weigh_map_keep, hfixes.weigh, weightAll_nil] at hms ⊢
    omega
  | define hn _ ih =>
    obtain ⟨-, hms⟩ := ih
    simp only [Job.Copies, copyWeight_children hn rfl, Expr.children, weigh_copies,
      weightAll_cons, weightAll_nil] at hms ⊢
    omega
  | plain hn _ ih => exact ih.trans (copyWeight_protect (w := w) hn).symm
  | protect err hn _ _ _ ihlast ihfirst ihbody =>
    simp only [Job.Copies, copyWeight_protect hn, weigh_append, weigh_under, copyWeights_binding,
      copyWeight_continuingWith, copyWeight_binding] at ihlast ihfirst ihbody ⊢
    omega
  | receive k x err _ _ ih =>
    simp only [Job.Copies, weigh_append, weigh_under, copyWeight_delivering] at ih ⊢
    omega
  | finish hn =>
    refine ⟨rfl, ?_⟩
    simp only [copyWeights_of_not_needs hn, weightAll_append]
    simp [weightAll, Operand.weight, Function.comp_def]
  | suspended v k _ _ ihrest ih =>
    obtain ⟨hhead, hms⟩ := ihrest
    refine ⟨hhead, ?_⟩
    simp only [Job.Copies, copyWeights_cons, copyWeights_binding, weightAll_append,
      weightAll_cons, weightAll_nil, Operand.weight] at ih hms ⊢
    omega
  | kept hn _ _ _ ih =>
    obtain ⟨hhead, hms⟩ := ih
    refine ⟨hhead, ?_⟩
    simp only [copyWeights_cons, copyWeight_of_not_needs hn, weigh_keep, weightAll_append,
      weightAll_cons, weightAll_nil, Operand.weight] at hms ⊢
    omega
  | named t hn _ _ _ ih =>
    obtain ⟨hhead, hms⟩ := ih
    refine ⟨hhead, ?_⟩
    simp only [copyWeights_cons, copyWeight_of_not_needs hn, copyWeights_binding, weigh_copied,
      weigh_under, weightAll_append, weightAll_cons, weightAll_nil, Operand.weight] at hms ⊢
    omega
  | sequence hn => exact (weigh_map_copied _).trans (copyWeights_of_not_needs hn).symm
  | sequenceLast hn _ _ ih =>
    simp only [Job.Copies, weigh_append, weigh_map_copied, copyWeights_append,
      copyWeights_of_not_needs hn, copyWeights_cons, copyWeights_nil] at ih ⊢
    omega
  | sequenceMore k ignored hn _ _ _ ihafter ih =>
    simp only [Job.Copies, weigh_append, weigh_map_copied, copyWeights_append, copyWeights_cons,
      copyWeights_of_not_needs hn, copyWeights_binding] at ihafter ih ⊢
    omega
  | bindingsValue hn _ ih =>
    simp only [Job.Copies, weigh_append, weigh_under, copyWeight_binding, Tail.trees,
      weigh_copiedBindings, copyWeights_values_of_not_needs hn, copyWeights_cons,
      copyWeights_nil] at ih ⊢
    omega
  | bindingsCode hn =>
    exact weigh_copiedBindings.trans (copyWeights_values_of_not_needs hn).symm
  | bindingsMore k hn _ _ ihafter ih =>
    simp only [Job.Copies, weigh_append, weigh_under, copyWeights_binding, copyWeight_binding,
      weigh_copiedBindings, List.map_append, List.map_cons, copyWeights_append, copyWeights_cons,
      copyWeights_values_of_not_needs hn] at ihafter ih ⊢
    omega
  | noCleanup | noClauses | noBodies => exact (Nat.mul_zero 2).symm
  | cleanup k v g f err g' _ _ ihvalue iherror =>
    simp only [Job.Copies, weigh_append, weigh_under, copyWeights_binding,
      Option.toList_some] at ihvalue iherror ⊢
    omega
  | clauses f err g _ _ ih =>
    simp only [Job.Copies, weigh_under, copyWeights_continuingWith] at ih ⊢
    exact ih
  | bodies _ _ ihbody ihrest =>
    simp only [Job.Copies, weigh_append, weigh_under, List.map_cons, copyWeights_cons,
      copyWeight_binding] at ihbody ihrest ⊢
    omega

/-- The trees that a derivation copies are the copies of the spared trees. -/
theorem Derives.copiedTrees_perm {Γ : List Symbol} {code : Expr} {ms : List Mark}
    {ns : List Mint} (h : Derives table (.tree Γ s e) (.code code) ms ns) :
  (copiedTrees ms).Perm (Task.copies table ⟨e, s.head.isSome, 0⟩)
  := by
  apply perm_of_sum_map_eq
  intro w
  rw [Task.sum_map_copies]
  exact h.copies w

end copies

/-- An atom of lowered code that is not copied: a function that the code holds, or a reference to
a continuation or the head of the scope, to a name that has been minted, or to one that a loop
of the tree binds. -/
inductive Generated (t t' : SymbolTable) (s : Scope) (e : Expr) : Expr → Prop where
  | builtin (b : Builtin) : Generated t t' s e (.builtin b)
  | success : Generated t t' s e (.var s.success)
  | failure : Generated t t' s e (.var s.failure)
  | head {head : Head} (h : s.head = some head) : Generated t t' s e (.var head.name)
  | minted {x : Symbol} (hmem : x ∈ t'.names) (hnew : x ∉ t.names) : Generated t t' s e (.var x)
  | loop {bs : List (Symbol × Expr)} {body : Expr} {x : Symbol}
    (h : (Expr.loop bs body).PartOf e) (hx : x ∈ bs.map (·.1)) : Generated t t' s e (.var x)

/-- The atoms that lowering with the default table generates. -/
theorem Generated.generates (t t' : SymbolTable) (s : Scope) (e : Expr) :
  Generates Table.default e (fun x => Generated t t' s e (.var x)) (Generated t t' s e)
  where
  name h := h
  thunk := .builtin _
  throw := .builtin _
  loop _ _ h _ hx := .loop h hx
  handler hhandler hsuccess hfailure hmade := by
    obtain rfl := handler_of_calledHandler? hhandler
    refine ⟨_, ?_, fun f _ => await_total hmade f⟩
    rintro g hg
    rw [List.mem_cons, List.mem_cons, List.mem_cons, List.mem_singleton] at hg
    rcases hg with rfl | rfl | rfl | rfl
    · exact .builtin _
    · exact hsuccess
    · exact .builtin _
    · exact hfailure

/-- Lowering copies selectively: it neither loses nor repeats a tree.  The largest parts of a tree
that neither reach a breakpoint nor re-enter a lowered loop, other than the operators of
breakpoint calls, stand in the code as they are.  The atoms of the code are those of these
parts, as often as they are in a part, and twice as often for each lowered cleanup that a part
is in, together with generated ones, of which none is a literal.  The tree itself has the atoms
of these parts, once each, and the operators. -/
theorem lowerIfNeeded_copies {s : Scope} {e code : Expr} {t t' : SymbolTable}
    (h : lowerIfNeeded Table.default s e t = .ok code t') :
  let task : Task := ⟨e, s.head.isSome, 0⟩
  (∀ part ∈ task.spared Table.default, part.tree.PartOf code) ∧
    e.atoms.Perm ((task.spared Table.default).flatMap (·.tree.atoms) ++
      task.operators Table.default) ∧
    (∀ f ∈ task.operators Table.default, f = .var "await") ∧
    ∃ generated, code.atoms.Perm ((task.copies Table.default).flatMap (·.atoms) ++ generated) ∧
      ∀ g ∈ generated, Generated t t' s e g
  := by
  intro task
  have hatoms : e.atoms.Perm ((task.spared Table.default).flatMap (·.tree.atoms) ++
      task.operators Table.default) :=
    perm_of_sum_map_eq fun w => task.sum_map_atoms w
  have hoperators : ∀ f ∈ task.operators Table.default, f = .var "await" := by
    intro f hf
    obtain ⟨op, rfl, hop⟩ := Task.eq_var_of_mem_operators hf
    rw [has_default_iff.1 hop]
  unfold lowerIfNeeded at h
  split at h
  · rename_i hn
    obtain ⟨ns, hns, ms, hms⟩ := lower_lowers Table.default [] s e hn t code t' h
    have hcopied : (copiedTrees ms).Perm (task.copies Table.default) := hms.copiedTrees_perm
    refine ⟨fun part hpart => ?_, hatoms, hoperators, ?_⟩
    · have hmem : part.tree ∈ copiedTrees ms := hcopied.mem_iff.2 (Task.mem_copies hpart)
      obtain ⟨m, hm, hcode⟩ := List.mem_map.1 hmem
      have hplaces : (Output.code code).Holds (fun _ => True) ms :=
        hms.holds (fun _ => Table.plain_default.usesArgs) trivial
      exact hcode ▸ (hplaces m (List.mem_of_mem_filter hm) trivial).partOf
    · have hminted : ∀ n ∈ ns, Generated t t' s e (.var n.symbol) := fun n hn =>
        .minted (hns.mem_names_iff.2 (.inr ⟨n, hn, rfl⟩)) (hns.new n hn)
      have hgives : s.Gives fun x => Generated t t' s e (.var x) :=
        ⟨.success, .failure, fun _ hhead => .head hhead⟩
      obtain ⟨gs, hgs, hsum⟩ :=
        hms.balanced (Generated.generates t t' s e) (.refl e) hminted hgives
      refine ⟨gs, perm_of_sum_map_eq fun w => ?_, hgs⟩
      have htotal : (Measure.ofAtoms w).total code =
          recorded ms ns (Measure.ofAtoms w) + (gs.map w).sum := hsum _ fun _ _ => rfl
      have hmints : (ns.map (Measure.ofAtoms w).mint).sum = 0 := by
        apply List.sum_eq_zero
        intro a ha
        obtain ⟨n, -, rfl⟩ := List.mem_map.1 ha
        cases n <;> rfl
      have hcopies : weigh (Measure.ofAtoms w).total ms =
          (((task.copies Table.default).flatMap (·.atoms)).map w).sum := by
        have hatoms : (Measure.ofAtoms w).total = fun c => (c.atoms.map w).sum :=
          funext (Measure.total_ofAtoms w)
        rw [sum_map_flatMap, hatoms, Task.sum_map_copies]
        exact hms.copies _
      rw [recorded, hmints, hcopies, Measure.total_ofAtoms] at htotal
      rw [List.map_append, List.sum_append]
      exact htotal
  · rename_i hn
    obtain ⟨rfl, -⟩ := Compiling.pure_eq_ok_iff.1 h
    have hspared : task.spared Table.default = [task] := by
      rw [Task.spared_eq]
      exact if_neg hn
    refine ⟨?_, hatoms, hoperators, [], ?_, List.forall_mem_nil _⟩
    · rw [hspared]
      exact List.forall_mem_singleton.2 (.refl e)
    · rw [Task.copies, hspared]
      simp [task]

/-- A cleanup that prints. -/
def printing : Expr := .call (.var "print") [.literal (.scalar (.int 1))]

/-- A body that suspends and has a cleanup. -/
def cleaningUp : Expr := .protect (.call (.var "await") [.var "op"]) [] (some printing)

/-- The atoms of the cleanup are in the code twice, and that of the operand once. -/
theorem cleaningUp_copies :
  ∃ code t', lowerIfNeeded Table.default (.ofContinuations "k" "f") cleaningUp .empty =
      .ok code t' ∧
    printing.PartOf code ∧
    ∃ generated, code.atoms.Perm (.var "op" :: (printing.atoms ++ printing.atoms) ++ generated) ∧
      ∀ g ∈ generated, Generated .empty t' (.ofContinuations "k" "f") cleaningUp g
  := by
  have hcompiles : ((lowerIfNeeded Table.default (.ofContinuations "k" "f") cleaningUp).run'
      .empty).isSome = true := by decide +kernel
  have hneeds : Task.needs Table.default ⟨cleaningUp, false, 0⟩ = true := by decide +kernel
  have hcall : Task.needs Table.default ⟨.call (.var "await") [.var "op"], false, 0⟩ = true := by
    decide +kernel
  have hop : ¬ Task.needs Table.default ⟨.var "op", false, 0⟩ = true := by decide +kernel
  have hprinting : ¬ Task.needs Table.default ⟨printing, false, 1⟩ = true := by decide +kernel
  have hspared : Task.spared Table.default ⟨cleaningUp, false, 0⟩ =
      [⟨.var "op", false, 0⟩, ⟨printing, false, 1⟩] := calc
    _ = [⟨.call (.var "await") [.var "op"], false, 0⟩, ⟨printing, false, 1⟩].flatMap
        (Task.spared Table.default) := by rw [Task.spared_eq, if_pos hneeds]; rfl
    _ = Task.spared Table.default ⟨.var "op", false, 0⟩ ++
        Task.spared Table.default ⟨printing, false, 1⟩ := by
      rw [List.flatMap_cons, List.flatMap_singleton, Task.spared_eq, if_pos hcall]
      simp [Task.split, calledHandler?, Table.default, Table.handler?]
    _ = _ := by rw [Task.spared_eq, if_neg hop, Task.spared_eq, if_neg hprinting]; rfl
  obtain ⟨code, t', hcode⟩ := Compiling.exists_eq_ok hcompiles
  obtain ⟨hparts, -, -, generated, hatoms, hgenerated⟩ := lowerIfNeeded_copies hcode
  have hcopies : Task.copies Table.default ⟨cleaningUp, false, 0⟩ =
      [.var "op", printing, printing] := by
    rw [Task.copies, hspared]
    rfl
  change code.atoms.Perm ((Task.copies Table.default ⟨cleaningUp, false, 0⟩).flatMap _ ++ _)
    at hatoms
  rw [hcopies] at hatoms
  refine ⟨code, t', hcode, hparts ⟨printing, false, 1⟩ ?_, generated, ?_, hgenerated⟩
  · change _ ∈ Task.spared Table.default ⟨cleaningUp, false, 0⟩
    rw [hspared]
    exact List.mem_cons_of_mem _ List.mem_cons_self
  · have hatom : (Expr.var "op").atoms = [.var "op"] := Expr.atoms_eq _
    simpa [hatom] using hatoms

end Skein.Coroutine
