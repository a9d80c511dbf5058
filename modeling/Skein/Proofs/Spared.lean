import Mathlib.Algebra.BigOperators.Ring.List
import Skein.Proofs.Derivation.Counting

/-!
# Spared trees

Lowering splits a tree into parts until it comes to parts that need no lowering, and these are
spared.  Here it is said which trees are spared, and in how many lowered cleanups each of them
is, without a word about lowering itself.  The atoms of a tree are those of its spared trees,
and the operators of the breakpoint calls between them.
-/

namespace Skein

/-- Lists have the same elements, as often, when all weights of their elements add up to the
same. -/
theorem perm_of_sum_map_eq {α : Type} {l l' : List α}
    (h : ∀ w : α → Nat, (l.map w).sum = (l'.map w).sum) :
  l.Perm l'
  := by
  classical
  have hcount : ∀ (a : α) (l : List α),
      l.count a = (l.map fun b => if b = a then 1 else 0).sum := by
    intro a l
    induction l with
    | nil => rfl
    | cons b l ih => rw [List.count_cons, List.map_cons, List.sum_cons, ih, Nat.add_comm]; simp
  rw [List.perm_iff_count]
  intro a
  rw [hcount, hcount, h]

/-- What lists weigh one after another. -/
theorem sum_map_flatMap {α β : Type} (l : List α) (g : α → List β) (w : β → Nat) :
  ((l.flatMap g).map w).sum = (l.map fun a => ((g a).map w).sum).sum
  := by
  rw [List.flatMap, List.map_flatten, List.sum_flatten, List.map_map, List.map_map]
  rfl

/-! ### Atoms -/

/-- The literals and references of a tree, also those inside of function literals. -/
def Expr.atoms (e : Expr) : List Expr :=
  if e.isAtom then [e] else e.pieces.attach.flatMap fun ⟨d, _⟩ => d.atoms
termination_by e.weight
decreasing_by exact weight_lt_of_mem_pieces ‹_›

/-- An atom has no pieces. -/
theorem Expr.pieces_of_isAtom {e : Expr} (h : e.isAtom = true) :
  e.pieces = []
  := by
  cases e with
  | literal | builtin | var => rfl
  | _ => cases h

/-- The atoms of a tree are those of its pieces, unless it is one itself. -/
theorem Expr.atoms_eq (e : Expr) :
  e.atoms = if e.isAtom then [e] else e.pieces.flatMap atoms
  := by
  rw [atoms]
  simp

namespace Coroutine

/-- Counts atoms. -/
def Measure.ofAtoms (w : Expr → Nat) : Measure := ⟨w, fun _ => 0, fun _ _ => 0⟩

/-- The atoms of a tree are counted. -/
theorem Measure.total_ofAtoms (w : Expr → Nat) (e : Expr) :
  (Measure.ofAtoms w).total e = (e.atoms.map w).sum
  := by
  have hnode : (Measure.ofAtoms w).node e = if e.isAtom then w e else 0 := by
    have hbinders : (e.binders.map (Measure.ofAtoms w).binder).sum = 0 :=
      List.sum_eq_zero fun n hn => (List.mem_map.1 hn).elim fun _ h => h.2.symm
    rw [node, hbinders]
    cases e.header? <;> rfl
  have hpieces : (Measure.ofAtoms w).totalAll e.pieces =
      ((e.pieces.flatMap Expr.atoms).map w).sum := by
    rw [sum_map_flatMap]
    apply congrArg List.sum
    apply List.map_congr_left
    intro d hd
    have := Expr.weight_lt_of_mem_pieces hd
    exact total_ofAtoms w d
  rw [total_eq, hnode, hpieces, Expr.atoms_eq]
  split
  · rename_i hatom
    rw [Expr.pieces_of_isAtom hatom]
    rfl
  · exact Nat.zero_add _
termination_by e.weight

/-! ### Spared trees -/

/-- A call that has a handler calls a breakpoint. -/
theorem has_of_calledHandler? {table : Table} {f : Expr} {op : Symbol} {handler : Handler}
    (h : calledHandler? table f = some (op, handler)) :
  f = .var op ∧ table.has op = true
  := by
  cases f with
  | var x =>
    rw [calledHandler?, Option.map_eq_some_iff] at h
    obtain ⟨found, hfound, heq⟩ := h
    cases heq
    rw [Table.handler?, Option.map_eq_some_iff] at hfound
    obtain ⟨entry, hentry, -⟩ := hfound
    have hname := List.find?_some hentry
    exact ⟨rfl, List.any_eq_true.2 ⟨entry, List.mem_of_find?_eq_some hentry, hname⟩⟩
  | _ => cases h

/-- A tree that lowering comes to. -/
structure Task where
  tree : Expr
  /-- Whether there is a lowered loop around the tree. -/
  looped : Bool
  /-- How many lowered cleanups the tree is in. -/
  cleanups : Nat

namespace Task

/-- Whether the tree has to be lowered. -/
def needs (table : Table) (task : Task) : Bool :=
  task.tree.reaches table.has || (task.looped && task.tree.recurs)

/-- What lowering the tree comes to next: its children, but not the operator of a breakpoint
call. -/
def split (table : Table) : Task → List Task
  | ⟨.call f args, looped, n⟩ =>
    (if (calledHandler? table f).isSome then args else f :: args).map (⟨·, looped, n⟩)
  | ⟨.loop bs body, looped, n⟩ => bs.map (⟨·.2, looped, n⟩) ++ [⟨body, true, n⟩]
  | ⟨.protect body clauses cleanup, looped, n⟩ =>
    ⟨body, looped, n⟩ :: clauses.map (⟨·.body, looped, n⟩) ++
      cleanup.toList.map (⟨·, looped, n + 1⟩)
  | ⟨e, looped, n⟩ => e.children.map (⟨·, looped, n⟩)

variable {table : Table} {task part : Task}

/-- What lowering comes to next are children. -/
theorem mem_children_of_mem_split (h : part ∈ task.split table) :
  part.tree ∈ task.tree.children
  := by
  obtain ⟨e, looped, n⟩ := task
  cases e with
  | call f args =>
    obtain ⟨d, hd, rfl⟩ := List.mem_map.1 h
    split at hd
    · exact List.mem_cons_of_mem _ hd
    · exact hd
  | loop bs body =>
    rcases List.mem_append.1 h with h | h
    · obtain ⟨b, hb, rfl⟩ := List.mem_map.1 h
      exact List.mem_append_left _ (List.mem_map_of_mem hb)
    · obtain rfl := List.mem_singleton.1 h
      exact List.mem_append_right _ List.mem_cons_self
  | protect body clauses cleanup =>
    rcases List.mem_append.1 h with h | h
    · rcases List.mem_cons.1 h with rfl | h
      · exact List.mem_cons_self
      · obtain ⟨c, hc, rfl⟩ := List.mem_map.1 h
        exact List.mem_cons_of_mem _ (List.mem_append_left _ (List.mem_map_of_mem hc))
    · obtain ⟨d, hd, rfl⟩ := List.mem_map.1 h
      exact List.mem_cons_of_mem _ (List.mem_append_right _ hd)
  | _ =>
    obtain ⟨d, hd, rfl⟩ := List.mem_map.1 h
    exact hd

/-- The trees that lowering comes to and that need no lowering: the largest ones in the tree,
other than the operators of breakpoint calls. -/
def spared (table : Table) (task : Task) : List Task :=
  if task.needs table then (task.split table).attach.flatMap fun ⟨part, _⟩ => part.spared table
  else [task]
termination_by task.tree.weight
decreasing_by exact Expr.weight_lt_of_mem_children (mem_children_of_mem_split ‹_›)

/-- A tree that has to be lowered is split, and any other one is spared. -/
theorem spared_eq (table : Table) (task : Task) :
  task.spared table =
    if task.needs table then (task.split table).flatMap (spared table) else [task]
  := by
  rw [spared]
  simp

/-- The copies of the spared trees: one of a tree that is in no lowered cleanup, and twice as many
for each of the cleanups that it is in. -/
def copies (table : Table) (task : Task) : List Expr :=
  (task.spared table).flatMap fun part => List.replicate (2 ^ part.cleanups) part.tree

/-- The operator of a breakpoint call. -/
def operator (table : Table) (task : Task) : List Expr :=
  match task.tree with
  | .call f _ => if (calledHandler? table f).isSome then [f] else []
  | _ => []

/-- The operators of the breakpoint calls that are lowered. -/
def operators (table : Table) (task : Task) : List Expr :=
  if task.needs table then
    task.operator table ++ (task.split table).attach.flatMap fun ⟨part, _⟩ => part.operators table
  else []
termination_by task.tree.weight
decreasing_by exact Expr.weight_lt_of_mem_children (mem_children_of_mem_split ‹_›)

/-- The operators of a tree that is split are its own and those of the parts. -/
theorem operators_eq (table : Table) (task : Task) :
  task.operators table =
    if task.needs table then task.operator table ++ (task.split table).flatMap (operators table)
    else []
  := by
  rw [operators]
  simp

/-- An operator is the name of a breakpoint. -/
theorem eq_var_of_mem_operator {f : Expr} (h : f ∈ task.operator table) :
  ∃ op, f = .var op ∧ table.has op = true
  := by
  unfold operator at h
  split at h
  · split at h
    · rename_i hsome
      obtain rfl := List.mem_singleton.1 h
      obtain ⟨⟨op, handler⟩, hhandler⟩ := Option.isSome_iff_exists.1 hsome
      obtain ⟨rfl, hhas⟩ := has_of_calledHandler? hhandler
      exact ⟨op, rfl, hhas⟩
    · exact absurd h List.not_mem_nil
  · exact absurd h List.not_mem_nil

/-- All operators are names of breakpoints. -/
theorem eq_var_of_mem_operators {task : Task} {f : Expr} (h : f ∈ task.operators table) :
  ∃ op, f = .var op ∧ table.has op = true
  := by
  rw [operators_eq] at h
  split at h
  · rcases List.mem_append.1 h with h | h
    · exact eq_var_of_mem_operator h
    · obtain ⟨part, hpart, h⟩ := List.mem_flatMap.1 h
      have := Expr.weight_lt_of_mem_children (mem_children_of_mem_split hpart)
      exact eq_var_of_mem_operators h
  · exact absurd h List.not_mem_nil
termination_by task.tree.weight

/-- The children of a tree are the parts that it is split into and the operator. -/
theorem sum_map_children (w : Expr → Nat) (task : Task) :
  (task.tree.children.map w).sum =
    ((task.split table).map fun part => w part.tree).sum + ((task.operator table).map w).sum
  := by
  obtain ⟨e, looped, n⟩ := task
  cases e with
  | call f args =>
    simp only [split, operator, Expr.children]
    split <;> simp [Function.comp_def, Nat.add_comm]
  | protect body clauses cleanup => simp [split, operator, Expr.children, Function.comp_def]
  | _ => simp [split, operator, Expr.children, Function.comp_def]

/-- A tree that has to be lowered has children. -/
theorem pieces_of_needs (h : task.needs table = true) :
  task.tree.isAtom = false ∧ task.tree.pieces = task.tree.children
  := by
  obtain ⟨e, looped, n⟩ := task
  cases e with
  | literal | builtin | var | lambda =>
    rw [needs, Expr.reaches_eq, Expr.recurs_eq] at h
    cases looped <;> cases h
  | _ => exact ⟨rfl, rfl⟩

/-- The atoms of a tree are those of the spared trees, and the operators. -/
theorem sum_map_atoms (w : Expr → Nat) (task : Task) :
  (task.tree.atoms.map w).sum =
    (((task.spared table).flatMap (·.tree.atoms) ++ task.operators table).map w).sum
  := by
  rw [Expr.atoms_eq, spared_eq, operators_eq]
  by_cases hn : task.needs table = true
  · obtain ⟨hatom, hpieces⟩ := pieces_of_needs hn
    have hoperator : ((task.operator table).map fun f => (f.atoms.map w).sum).sum =
        ((task.operator table).map w).sum := by
      apply congrArg List.sum
      apply List.map_congr_left
      intro f hf
      obtain ⟨op, rfl, -⟩ := eq_var_of_mem_operator hf
      rw [Expr.atoms_eq]
      rfl
    have hparts : ((task.split table).map fun part => (part.tree.atoms.map w).sum).sum =
        ((task.split table).map fun part =>
          (((part.spared table).flatMap (·.tree.atoms) ++ part.operators table).map w).sum).sum := by
      apply congrArg List.sum
      apply List.map_congr_left
      intro part hpart
      have := Expr.weight_lt_of_mem_children (mem_children_of_mem_split hpart)
      exact sum_map_atoms w part
    rw [if_pos hn, if_pos hn, hatom, if_neg Bool.false_ne_true, hpieces, sum_map_flatMap,
      sum_map_children _ task, hoperator, hparts]
    simp only [List.flatMap_assoc, List.map_append, List.sum_append, sum_map_flatMap,
      List.sum_map_add]
    omega
  · rw [if_neg hn, if_neg hn, ← Expr.atoms_eq]
    simp
termination_by task.tree.weight

/-- What the copies of the spared trees weigh. -/
def copyWeight (table : Table) (w : Expr → Nat) (task : Task) : Nat :=
  ((task.spared table).map fun part => 2 ^ part.cleanups * w part.tree).sum

variable {w : Expr → Nat}

/-- A spared tree is copied. -/
theorem mem_copies (h : part ∈ task.spared table) :
  part.tree ∈ task.copies table
  := List.mem_flatMap.2 ⟨part, h, List.mem_replicate.2 ⟨Nat.two_pow_pos _ |>.ne', rfl⟩⟩

/-- What copies weigh is what they weigh together. -/
theorem sum_map_copies (table : Table) (w : Expr → Nat) (task : Task) :
  ((task.copies table).map w).sum = task.copyWeight table w
  := by
  rw [copies, sum_map_flatMap, copyWeight]
  apply congrArg List.sum
  apply List.map_congr_left
  intro part _
  rw [List.map_replicate, List.sum_replicate]
  rfl

/-- The copies of a tree that is split are those of its parts. -/
theorem copyWeight_of_needs (h : task.needs table = true) :
  task.copyWeight table w = ((task.split table).map (copyWeight table w)).sum
  := by
  rw [copyWeight, spared_eq, if_pos h, sum_map_flatMap]
  rfl

/-- The copies of a spared tree. -/
theorem copyWeight_of_not_needs (h : task.needs table = false) :
  task.copyWeight table w = 2 ^ task.cleanups * w task.tree
  := by
  rw [copyWeight, spared_eq, h, if_neg Bool.false_ne_true]
  exact Nat.add_zero _

/-- In one more cleanup. -/
def deeper (task : Task) : Task := { task with cleanups := task.cleanups + 1 }

/-- In a cleanup a tree is split as it is elsewhere. -/
theorem split_deeper (table : Table) (task : Task) :
  task.deeper.split table = (task.split table).map deeper
  := by
  obtain ⟨e, looped, n⟩ := task
  cases e <;> simp [split, deeper, Function.comp_def]

/-- In a cleanup trees are copied twice. -/
theorem copyWeight_deeper (table : Table) (w : Expr → Nat) (task : Task) :
  task.deeper.copyWeight table w = 2 * task.copyWeight table w
  := by
  have hneeds : task.deeper.needs table = task.needs table := rfl
  by_cases hn : task.needs table = true
  · rw [copyWeight_of_needs hn, copyWeight_of_needs (hneeds.trans hn), split_deeper, List.map_map,
      ← List.sum_map_mul_left (task.split table) (copyWeight table w) 2]
    apply congrArg List.sum
    apply List.map_congr_left
    intro part hpart
    have := Expr.weight_lt_of_mem_children (mem_children_of_mem_split hpart)
    exact copyWeight_deeper table w part
  · rw [Bool.not_eq_true] at hn
    rw [copyWeight_of_not_needs hn, copyWeight_of_not_needs (hneeds.trans hn), ← Nat.mul_assoc,
      ← Nat.pow_succ']
    rfl
termination_by task.tree.weight

end Task

end Coroutine

end Skein
