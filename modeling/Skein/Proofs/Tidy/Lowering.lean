import Skein.Coroutine.Handlers
import Skein.Proofs.Lowering

/-!
# Lowering keeps trees tidy

The code that a coroutine body becomes need not leave the frames that it enters, since it
leaves them in continuations.  But it holds no function that enters or leaves frames, and it
is the body of a function literal, which does nothing before it is called.
-/

namespace Skein

namespace Coroutine

open Compiling
open Skein.Expr (isFramed)

/-- The code that a breakpoint makes holds no function that enters or leaves frames, when its
arguments hold none. -/
def Table.Framed (table : Table) : Prop :=
  ∀ entry ∈ table.entries, ∀ site args code, (∀ a ∈ args, a.isFramed = true) →
    entry.2 site args = .ok code → code.isFramed = true

/-- The tables of some flavors make code that holds no function which enters or leaves
frames. -/
def Flavors.Framed (flavors : Flavors) : Prop :=
  ∀ name table, flavors.table name = .ok table → table.Framed

/-- The code that an awaited call becomes holds no function that enters or leaves frames. -/
theorem Table.framed_default :
  Table.default.Framed
  := by
  refine List.forall_mem_singleton.2 fun site args code hargs hcode => ?_
  change await site args = .ok code at hcode
  unfold await at hcode
  split at hcode
  · cases hcode
  · cases hcode
    obtain ⟨hop, hrest⟩ := List.forall_mem_cons.1 hargs
    have hvar : ∀ x, ∀ a ∈ [Expr.var x], a.isFramed = true :=
      fun x => List.forall_mem_singleton.2 (Expr.isFramed_var x)
    apply Expr.isFramed_of_children rfl rfl
    refine List.forall_mem_cons.2 ⟨hop, List.forall_mem_append.2 ⟨hrest, ?_⟩⟩
    exact List.forall_mem_cons.2 ⟨Expr.isFramed_call_builtin (hvar _),
      List.forall_mem_singleton.2 (Expr.isFramed_call_builtin (hvar _))⟩

/-- The default flavors make code that holds no function which enters or leaves frames. -/
theorem Flavors.framed_default :
  Flavors.default.Framed
  := by
  intro name table h
  unfold Flavors.table at h
  split at h
  · rename_i hfind
    cases h
    obtain ⟨-, rfl⟩ := Prod.mk.inj (List.mem_singleton.1 (List.mem_of_find?_eq_some hfind))
    exact Table.framed_default
  · cases h

/-- The parts of a call hold no function that enters or leaves frames, but for the function that
is called at once. -/
theorem isFramed_call {f : Expr} {args : List Expr} (h : (Expr.call f args).isFramed = true) :
  (f.isFramed = true ∨ ∃ b, f = .builtin b) ∧ ∀ a ∈ args, a.isFramed = true
  := by
  obtain ⟨-, hparts⟩ := Expr.isFramed_iff.1 h
  unfold Expr.heldParts at hparts
  split at hparts
  · rename_i heq
    cases heq
    exact ⟨.inr ⟨_, rfl⟩, hparts⟩
  · rename_i heq
    cases heq
  · exact ⟨.inl (hparts f List.mem_cons_self), fun a ha => hparts a (List.mem_cons_of_mem _ ha)⟩

/-- The parts of a tree that is no call hold no function that enters or leaves frames. -/
theorem isFramed_of_mem_children {e c : Expr} (h : e.isFramed = true)
    (hcall : ∀ f args, e ≠ .call f args) (hc : c ∈ e.children) :
  c.isFramed = true
  := by
  rcases Expr.isFramed_children h with h | ⟨b, args, rfl, -⟩
  · exact h c hc
  · exact absurd rfl (hcall _ _)

/-- A tree that is no function holds no function that enters or leaves frames when its children
hold none. -/
theorem isFramed_node {e : Expr} (hbuiltin : ∀ b, e ≠ .builtin b) (hbody : e.functionBody? = none)
    (h : ∀ c ∈ e.children, c.isFramed = true) :
  e.isFramed = true
  := by
  refine Expr.isFramed_of_children ?_ hbody h
  unfold Expr.movesFrames
  split
  · rename_i b
    exact absurd rfl (hbuiltin b)
  · rfl

/-- Lowering adds no function that enters or leaves frames. -/
theorem carries_framed {table : Table} (htable : table.Framed) :
  Carries table (fun _ => True) (·.isFramed = true) (·.isFramed = true)
  where
  fresh _ _ := trivial
  copied h _ := h
  call h := ⟨.inr (isFramed_call h).1, (isFramed_call h).2⟩
  children := isFramed_of_mem_children
  loopNames _ _ _ := trivial
  name _ := Expr.isFramed_var _
  raise _ := Expr.isFramed_call_builtin (List.forall_mem_singleton.2 (Expr.isFramed_var _))
  block := Expr.isFramed_block
  handler := by
    intro f op handler site args code h _ _ hargs hcode
    unfold calledHandler? at h
    split at h
    · obtain ⟨handler', hfind, hpair⟩ := Option.map_eq_some_iff.1 h
      cases hpair
      obtain ⟨entry, hentry, rfl⟩ := Option.map_eq_some_iff.1 hfind
      exact htable entry (List.mem_of_find?_eq_some hentry) site args code hargs hcode
    · cases h
  var _ := Expr.isFramed_var _
  lambda h := (Expr.Tidy.lambda h).framed
  callBuiltin := Expr.isFramed_call_builtin
  node _ hbuiltin hbody _ := isFramed_node hbuiltin hbody

/-- The function that a coroutine body becomes holds no function that enters or leaves
frames. -/
theorem compile_tidy {table : Table} (htable : table.Framed) {body : Expr}
    (h : body.isFramed = true) :
  Makes Expr.Tidy (Coroutine.compile table body)
  := by
  unfold Coroutine.compile
  refine Makes.bind (.any _) fun success _ => Makes.bind (.any _) fun failure _ => ?_
  refine Makes.bind ((carries_framed htable).handOver _ body ⟨trivial, trivial, nofun⟩ h) ?_
  exact fun code hcode => .pure (.lambda hcode)

end Coroutine

end Skein
