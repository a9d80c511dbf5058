import Skein.Coroutine.Handlers
import Skein.Proofs.Derivation.Counting

/-!
# Plain handlers

What a handler makes of its arguments is up to it.  A plain handler uses each of them once, in
the scope of the call, and adds nothing but atoms, so that it neither loses nor repeats a tree
of the body, and captures no name.  The handlers at hand are plain.
-/

namespace Skein.Coroutine

/-- A handler that uses each of its arguments once, in the scope of the call, and adds only
atoms. -/
structure Handler.Plain (handler : Handler) : Prop where
  uses {site : Site} {args : List Expr} {made : Expr} : handler site args = .ok made →
    ∀ a ∈ args, a.LiesIn [] made
  adds {site : Site} {args : List Expr} {made : Expr} : handler site args = .ok made →
    ∃ gs : List Expr, ∀ f : Measure, f.total made = f.totalAll args + (gs.map f.atom).sum

/-- All handlers of a table are plain. -/
def Table.Plain (table : Table) : Prop := ∀ p ∈ table.entries, p.2.Plain

/-- Waiting for a call adds the two wrapped continuations to its arguments. -/
theorem await_total {site : Site} {args : List Expr} {made : Expr}
    (h : await site args = .ok made) (f : Measure) :
  f.total made = f.totalAll args + (List.map f.atom [.builtin .awaitResume, .var site.success,
    .builtin .awaitReject, .var site.failure]).sum
  := by
  cases args with
  | nil => cases h
  | cons op rest =>
    cases h
    simp
    omega

/-- Waiting for a call hands the wrapped continuations to it, after its arguments. -/
theorem await_plain :
  await.Plain
  where
  uses {site args made} h := by
    cases args with
    | nil => cases h
    | cons op rest =>
      cases h
      intro a ha
      apply Expr.liesIn_of_placed rfl
      rcases List.mem_cons.1 ha with rfl | ha
      · exact List.mem_cons_self
      · exact List.mem_cons_of_mem _ (List.mem_append_left _ ha)
  adds h := ⟨_, await_total h⟩

/-- Doubling sends the product of the argument and two. -/
theorem twice_plain :
  twice.Plain
  where
  uses {site args made} h := by
    match args, h with
    | [a], h =>
      cases h
      intro b hb
      apply (Expr.liesIn_of_placed rfl _).trans liesIn_send
      exact List.mem_cons_of_mem _ (List.mem_cons.2 (.inl (List.mem_singleton.1 hb)))
  adds {site args made} h := by
    match args, h with
    | [a], h =>
      cases h
      refine ⟨[.var site.success, .var "*", .literal (.scalar (.int 2))], fun f => ?_⟩
      simp
      omega

/-- The names bound around the call are sent in a literal. -/
theorem locals_plain :
  locals.Plain
  where
  uses {site args made} h := by
    cases h
    intro a ha
    apply (Expr.liesIn_of_placed rfl _).trans liesIn_send
    exact List.mem_cons_of_mem _ (List.mem_cons_of_mem _ ha)
  adds {site args made} h := by
    cases h
    refine ⟨[.var site.success, .var "vector",
      .literal (.vector (site.bound.map fun name => .scalar (.string name)))], fun f => ?_⟩
    simp
    omega

/-- Failing calls the continuation for errors. -/
theorem fail_plain :
  fail.Plain
  where
  uses {site args made} h := by
    cases h
    intro a ha
    exact Expr.liesIn_of_placed rfl (List.mem_cons_of_mem _ ha)
  adds {site args made} h := by
    cases h
    exact ⟨[.var site.failure], fun f => by simp; omega⟩

/-- The handlers of the default flavor are plain. -/
theorem Table.plain_default :
  Table.default.Plain
  := List.forall_mem_singleton.2 await_plain

/-- The handler that is found for a call is one of the table. -/
theorem Table.Plain.handler {table : Table} (h : table.Plain) {f : Expr} {op : Symbol}
    {handler : Handler} (hhandler : calledHandler? table f = some (op, handler)) :
  handler.Plain
  := by
  cases f with
  | var x =>
    rw [calledHandler?, Option.map_eq_some_iff] at hhandler
    obtain ⟨found, hfound, heq⟩ := hhandler
    cases heq
    rw [Table.handler?, Option.map_eq_some_iff] at hfound
    obtain ⟨entry, hentry, rfl⟩ := hfound
    exact h entry (List.mem_of_find?_eq_some hentry)
  | _ => cases hhandler

/-- The arguments of plain handlers lie in what they make. -/
theorem Table.Plain.usesArgs {table : Table} (h : table.Plain) :
  table.UsesArgs
  := fun _ _ _ hhandler _ _ _ hmade => (h.handler hhandler).uses hmade

/-- Plain handlers add nothing but atoms. -/
theorem Table.Plain.generates {table : Table} (h : table.Plain) (body : Expr) :
  Generates table body (fun _ => True) fun _ => True
  where
  name _ := trivial
  thunk := trivial
  throw := trivial
  loop _ _ _ _ _ := trivial
  handler hhandler _ _ hmade := by
    obtain ⟨gs, hgs⟩ := (h.handler hhandler).adds hmade
    exact ⟨gs, fun _ _ => trivial, fun f _ => hgs f⟩

end Skein.Coroutine
