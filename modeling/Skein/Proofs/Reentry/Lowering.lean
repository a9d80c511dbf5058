import Skein.Coroutine.Handlers
import Skein.Proofs.Reentry

/-!
# Lowering keeps trees orderly

A scope allows a re-entry when it has the head of the loop that is re-entered, with as many
values.  An orderly tree in a scope that allows its re-entries is lowered to a tree that
re-enters no loop around it: the re-entries on lowered paths have become calls of heads, and
the trees that are copied re-enter no loop that is lowered.  So lowering never fails at a
re-entry, and every form is compiled to an orderly tree.
-/

namespace Skein

/-! ### Failing elsewhere -/

/-- Whether a compilation has failed at a re-entry. -/
def CompileError.isReentry : CompileError → Bool
  | misplacedRecur _ | recurArity _ _ => true
  | _ => false

namespace Compiling

variable {α β : Type} {post : α → Prop} {post' : β → Prop}

/-- A compilation gives something with a property, or fails elsewhere than at a re-entry. -/
inductive Yielded (post : α → Prop) : EStateM.Result CompileError SymbolTable α → Prop where
  | ok {a : α} {t : SymbolTable} (h : post a) : Yielded post (.ok a t)
  | error {e : CompileError} {t : SymbolTable} (h : e.isReentry = false) :
    Yielded post (.error e t)

/-- Whatever a compilation gives has a property, and it fails only elsewhere than at a
re-entry. -/
def Yields (post : α → Prop) (act : Compiling α) : Prop := ∀ t, Yielded post (act t)

/-- What a compilation gives has the property. -/
theorem Yields.makes {act : Compiling α} (h : Yields post act) :
  Makes post act
  := by
  intro t a t' ha
  have hact := h t
  rw [ha] at hact
  cases hact with
  | ok h => exact h

/-- A step without effects. -/
theorem Yields.pure {a : α} (h : post a) :
  Yields post (Pure.pure a)
  := fun _ => .ok h

/-- A failure elsewhere than at a re-entry. -/
theorem Yields.throw {e : CompileError} (h : e.isReentry = false) :
  Yields post (MonadExcept.throw e)
  := fun _ => .error h

/-- Minting a name does not fail. -/
theorem Yields.fresh (stem : String) :
  Yields (fun _ => True) (Skein.fresh stem)
  := fun _ => .ok trivial

/-- One step of a compilation after another. -/
theorem Yields.bind {act : Compiling α} {k : α → Compiling β} (h : Yields post act)
    (hk : ∀ a, post a → Yields post' (k a)) :
  Yields post' (act >>= k)
  := by
  intro t
  have hact := h t
  change Yielded post' (EStateM.bind act k t)
  unfold EStateM.bind
  cases ha : act t with
  | ok a t' =>
    rw [ha] at hact
    cases hact with
    | ok h => exact hk a h t'
  | error e t' =>
    rw [ha] at hact
    cases hact with
    | error h => exact .error h

end Compiling

namespace Coroutine

open Compiling
open Skein.Expr (weight weightAll weightBindings weightClauses weightCleanup)

/-! ### Breakpoints -/

/-- What a handler makes of a call: an orderly tree, or a failure elsewhere than at a
re-entry. -/
inductive Handled : Except CompileError Expr → Prop where
  | ok {code : Expr} (h : code.Orderly none) : Handled (.ok code)
  | error {e : CompileError} (h : e.isReentry = false) : Handled (.error e)

/-- A handler makes orderly trees of orderly arguments. -/
def Handler.Orderly (handler : Handler) : Prop :=
  ∀ site args, (∀ a ∈ args, a.Orderly none) → Handled (handler site args)

/-- The handlers of a table make orderly trees. -/
def Table.Orderly (table : Table) : Prop := ∀ entry ∈ table.entries, Handler.Orderly entry.2

/-- The handlers of some flavors make orderly trees. -/
def Flavors.Orderly (flavors : Flavors) : Prop :=
  ∀ name table, flavors.table name = .ok table → table.Orderly

/-- The code that an awaited call becomes is orderly. -/
theorem await_orderly :
  Handler.Orderly await
  := by
  intro site args hargs
  unfold await
  split
  · exact .error rfl
  · rename_i op rest
    obtain ⟨hop, hrest⟩ := List.forall_mem_cons.1 hargs
    have hwrapped : ∀ (b : Builtin) (x : Symbol),
        (Expr.call (.builtin b) [.var x]).Orderly none := fun b x =>
      .call (.builtin b) (List.forall_mem_singleton.2 (.var x))
    refine .ok (.call hop (List.forall_mem_append.2 ⟨hrest, ?_⟩))
    exact List.forall_mem_cons.2 ⟨hwrapped _ _, List.forall_mem_singleton.2 (hwrapped _ _)⟩

/-- The code that delivers the double of an argument is orderly. -/
theorem twice_orderly :
  Handler.Orderly twice
  := by
  intro site args hargs
  unfold twice
  split
  · have ha := List.forall_mem_singleton.1 hargs
    exact .ok (.send (.call (.var _)
      (List.forall_mem_cons.2 ⟨ha, List.forall_mem_singleton.2 (.literal _)⟩)))
  · exact .error rfl

/-- The code that delivers the names bound around a call is orderly. -/
theorem locals_orderly :
  Handler.Orderly locals
  := fun _ _ hargs =>
    .ok (.send (.call (.var _) (List.forall_mem_cons.2 ⟨.literal _, hargs⟩)))

/-- The code that delivers an error is orderly. -/
theorem fail_orderly :
  Handler.Orderly fail
  := fun _ _ hargs => .ok (.call (.var _) hargs)

/-- The default flavors make orderly trees. -/
theorem Flavors.orderly_default :
  Flavors.default.Orderly
  := by
  intro name table h
  unfold Flavors.table at h
  split at h
  · rename_i hfind
    cases h
    obtain ⟨-, rfl⟩ := Prod.mk.inj (List.mem_singleton.1 (List.mem_of_find?_eq_some hfind))
    exact List.forall_mem_singleton.2 await_orderly
  · cases h

/-! ### Parts of the code -/

variable {table : Table} {arity : Option Nat} {s s' : Scope}

/-- A guarded body. -/
theorem guarded_orderly {body : Expr} (failure : Symbol) (h : body.Orderly none) :
  Yields (·.Orderly none) (guarded body failure)
  := by
  unfold guarded
  refine (Yields.fresh "e").bind fun e _ => .pure (.protect h ?_
    fun _ h => absurd h (Option.not_mem_none _))
  exact List.forall_mem_singleton.2 (.send (.var e))

/-- A function of one value with a guarded body. -/
theorem receiver_orderly (param : Symbol) {body : Expr} (failure : Symbol)
    (h : body.Orderly none) :
  Yields (·.Orderly none) (receiver param body failure)
  := by
  unfold receiver
  exact (guarded_orderly failure h).bind fun _ hcode => .pure (.lambda hcode)

/-- Raising a value. -/
theorem raising_orderly {e : Expr} (h : e.Orderly none) :
  (raising e).Orderly none
  := .call (.builtin .throw) (List.forall_mem_singleton.2 h)

/-- Trees and the names that stand for them: there are as many. -/
theorem fixValues_orderly (s : Scope) {es : List Expr} (h : ∀ e ∈ es, e.Orderly none) :
  Yields (fun fixed => (∀ b ∈ fixed.1, b.2.Orderly none) ∧ ∀ v ∈ fixed.2, v.Orderly none)
    (fixValues s es)
  := by
  induction es with
  | nil =>
    rw [fixValues]
    exact .pure ⟨fun _ h => absurd h List.not_mem_nil, fun _ h => absurd h List.not_mem_nil⟩
  | cons e es ih =>
    obtain ⟨he, hes⟩ := List.forall_mem_cons.1 h
    rw [fixValues]
    split
    · refine (ih hes).bind ?_
      rintro ⟨temps, values⟩ ⟨htemps, hvalues⟩
      exact .pure ⟨htemps, List.forall_mem_cons.2 ⟨he, hvalues⟩⟩
    · refine (Yields.fresh "t").bind fun t _ => (ih hes).bind ?_
      rintro ⟨temps, values⟩ ⟨htemps, hvalues⟩
      exact .pure ⟨List.forall_mem_cons.2 ⟨he, htemps⟩, List.forall_mem_cons.2 ⟨.var t, hvalues⟩⟩

/-- The thunk that enters a lowered loop anew. -/
theorem reentry_orderly (head : Head) (s : Scope) {values : List Expr}
    (h : ∀ e ∈ values, e.Orderly none) :
  Yields (·.Orderly none) (reentry head s values)
  := by
  unfold reentry
  refine (fixValues_orderly s h).bind ?_
  rintro ⟨temps, values⟩ ⟨htemps, hvalues⟩
  refine .pure (.binding htemps (.call (.builtin .thunk) (List.forall_mem_singleton.2 ?_)))
  exact .lambda (.call (.var _) hvalues)

/-- The first of some trees. -/
theorem headD_orderly {values : List Expr} (h : ∀ e ∈ values, e.Orderly none) :
  (values.headD .nil).Orderly none
  := by
  cases values with
  | nil => exact .literal _
  | cons e es => exact h e List.mem_cons_self

/-- The code of a breakpoint. -/
theorem handler_orderly (htable : table.Orderly) {f : Expr} {op : Symbol} {handler : Handler}
    {site : Site} {args : List Expr} (h : calledHandler? table f = some (op, handler))
    (hargs : ∀ a ∈ args, a.Orderly none) :
  Yields (·.Orderly none) (Compiling.ofExcept (handler site args))
  := by
  have hhandler : Handler.Orderly handler := by
    unfold calledHandler? at h
    split at h
    · obtain ⟨handler', hfind, hpair⟩ := Option.map_eq_some_iff.1 h
      cases hpair
      obtain ⟨entry, hentry, rfl⟩ := Option.map_eq_some_iff.1 hfind
      exact htable entry (List.mem_of_find?_eq_some hentry)
    · cases h
  have hhandled := hhandler site args hargs
  revert hhandled
  generalize handler site args = r
  rintro (⟨hcode⟩ | ⟨he⟩)
  · exact .pure hcode
  · exact .throw he

/-! ### Re-entries that a scope allows -/

/-- A scope allows the re-entries of a tree: it has the head of a loop with as many
bindings. -/
def Scope.Allows (s : Scope) (arity : Option Nat) : Prop :=
  ∀ n ∈ arity, s.head.map (·.arity) = some n

/-- Where no re-entry is allowed, every scope will do. -/
theorem Scope.Allows.none (s : Scope) :
  s.Allows none
  := fun _ h => absurd h (Option.not_mem_none _)

/-- Another scope with the same head. -/
theorem Scope.Allows.of_head (h : s.Allows arity) (hhead : s'.head = s.head) :
  s'.Allows arity
  := by
  intro n hn
  rw [hhead]
  exact h n hn

/-- A tree that need not be lowered re-enters no loop around it. -/
theorem orderly_of_not_needsLowering {e : Expr} (he : e.Orderly arity) (hs : s.Allows arity)
    (h : needsLowering table s e = false) :
  e.Orderly none
  := by
  cases arity with
  | none => exact he
  | some n =>
    have hhead : s.head.isSome = true := by
      have hsome := hs n rfl
      cases hs : s.head with
      | none =>
        rw [hs] at hsome
        cases hsome
      | some head => rfl
    rw [needsLowering, hhead, Bool.true_and, Bool.or_eq_false_iff] at h
    exact he.of_not_recurs h.2 none

/-- A tail re-enters loops only where it may. -/
def Tail.Orderly (arity : Option Nat) : Tail → Prop
  | .value body => body.Orderly arity
  | .code e => e.Orderly none

/-- One more tree after some trees. -/
theorem forall_mem_concat {P : Expr → Prop} {es : List Expr} {e : Expr} (h : ∀ c ∈ es, P c)
    (he : P e) :
  ∀ c ∈ es ++ [e], P c
  := List.forall_mem_append.2 ⟨h, List.forall_mem_singleton.2 he⟩

/-! ### Lowering -/

mutual

/-- Handing over the value of a tree. -/
theorem handOver_orderly (htable : table.Orderly) (s : Scope) (e : Expr) :
  ∀ {arity : Option Nat}, e.Orderly arity → s.Allows arity →
    Yields (·.Orderly none) (handOver table s e)
  := by
  intro arity he hs
  rw [handOver]
  split
  · exact lower_orderly htable s e he hs
  · rename_i hneeds
    exact .pure (.send (orderly_of_not_needsLowering he hs (Bool.eq_false_iff.2 hneeds)))
termination_by 3 * e.weight + 1

/-- Lowering a tree. -/
theorem lower_orderly (htable : table.Orderly) (s : Scope) (e : Expr) :
  ∀ {arity : Option Nat}, e.Orderly arity → s.Allows arity →
    Yields (·.Orderly none) (lower table s e)
  := by
  cases e with
  | literal d => intro _ _ _; rw [lower]; exact .pure (.send (.literal d))
  | builtin b => intro _ _ _; rw [lower]; exact .pure (.send (.builtin b))
  | var x => intro _ _ _; rw [lower]; exact .pure (.send (.var x))
  | lambda name params body =>
    rintro _ (_ | _ | _ | _ | _ | _ | _ | _ | _ | _ | _ | hbody) _
    rw [lower]
    exact .pure (.send (.lambda hbody))
  | call f args =>
    intro _ he _
    cases he with
    | call hf hargs =>
      rw [lower]
      split
      · rename_i op handler hhandler
        exact inOrder_orderly htable s [] args _
          (fun s' values _ hvalues => handler_orderly htable hhandler hvalues) hargs
      · apply inOrder_orderly htable s [] (f :: args)
        · intro s' values _ hvalues
          exact .pure (.send (.call (headD_orderly hvalues)
            fun a ha => hvalues a (List.mem_of_mem_tail ha)))
        · exact List.forall_mem_cons.2 ⟨hf, hargs⟩
  | cond test yes no =>
    intro _ he hs
    cases he with
    | cond htest hyes hno =>
      rw [lower]
      apply inOrder_orderly htable s [] [test] _ _ (List.forall_mem_singleton.2 htest)
      intro s' values hhead hvalues
      refine (handOver_orderly htable s' yes hyes (hs.of_head hhead)).bind fun yes' hyes => ?_
      refine (handOver_orderly htable s' no hno (hs.of_head hhead)).bind fun no' hno => ?_
      exact .pure (.cond (headD_orderly hvalues) hyes hno)
  | seq es =>
    intro _ he hs
    cases he with
    | seq hbefore hlast =>
      rw [lower]
      exact lowerSeq_orderly htable s [] es (fun _ h => absurd h List.not_mem_nil)
        ⟨hbefore, hlast⟩ hs
  | bind bindings body =>
    intro arity he hs
    cases he with
    | bind hbs hbody =>
      rw [lower]
      exact lowerBindings_orderly htable s [] bindings (.value body)
        (fun _ h => absurd h List.not_mem_nil) hbs
        (show (Tail.value body).Orderly arity from hbody) hs
  | loop bindings body =>
    intro _ he _
    cases he with
    | loop hbs hbody =>
      rw [lower]
      refine (Yields.fresh "loop").bind fun name _ => ?_
      have hinner : ((s.inLoop ⟨name, (bindings.map (·.1)).length⟩).binding
          (bindings.map (·.1))).Allows (some bindings.length) := by
        rintro _ ⟨⟩
        exact congrArg some (List.length_map _)
      refine (handOver_orderly htable _ body hbody hinner).bind fun inner hinner => ?_
      refine (guarded_orderly s.failure hinner).bind fun code hcode => ?_
      have henter : (Expr.call (.var name)
          ((bindings.map (·.1)).map Expr.var)).Orderly none := by
        refine .call (.var name) fun a ha => ?_
        obtain ⟨x, -, rfl⟩ := List.mem_map.1 ha
        exact .var x
      refine (lowerBindings_orderly htable _ [] bindings (.code _)
        (fun _ h => absurd h List.not_mem_nil) hbs (show (Tail.code _).Orderly none from henter)
        (Scope.Allows.none _)).bind fun start hstart => ?_
      exact .pure (.binding (List.forall_mem_singleton.2 (.lambda hcode)) hstart)
  | recur args =>
    intro _ he hs
    cases he with
    | recur hargs =>
      have hhead := hs _ rfl
      rw [lower]
      split
      · rename_i hnone
        rw [hnone] at hhead
        cases hhead
      · rename_i head hsome
        rw [hsome] at hhead
        rw [if_pos (Option.some.inj hhead).symm]
        exact inOrder_orderly htable s [] args _
          (fun s' values _ hvalues => reentry_orderly head s' hvalues) hargs
  | define x e =>
    intro _ he _
    cases he with
    | define he =>
      rw [lower]
      apply inOrder_orderly htable s [] [e] _ _ (List.forall_mem_singleton.2 he)
      intro s' values _ hvalues
      exact .pure (.send (.define (headD_orderly hvalues)))
  | protect body clauses cleanup =>
    intro _ he _
    cases he with
    | protect hbody hclauses hcleanup =>
      rw [lower]
      split
      · exact handOver_orderly htable s body hbody (.none s)
      · refine (lowerCleanup_orderly htable s cleanup hcleanup).bind fun last hlast => ?_
        refine (lowerClauses_orderly htable _ last clauses hclauses).bind fun first hfirst => ?_
        refine (handOver_orderly htable _ body hbody (.none _)).bind fun code hcode => ?_
        refine (guarded_orderly first.failure hcode).bind fun code hcode => ?_
        exact .pure (.binding (List.forall_mem_append.2 ⟨hlast, hfirst⟩) hcode)
termination_by 3 * e.weight
decreasing_by
  all_goals
    simp only [weight, weightAll, Tail.weight]
    omega

/-- Code that evaluates trees in turn. -/
theorem inOrder_orderly (htable : table.Orderly) (s : Scope) (values es : List Expr)
    (finish : Scope → List Expr → Compiling Expr)
    (hfinish : ∀ s' vs, s'.head = s.head → (∀ v ∈ vs, v.Orderly none) →
      Yields (·.Orderly none) (finish s' vs)) :
  (∀ e ∈ values ++ es, e.Orderly none) →
    Yields (·.Orderly none) (inOrder table s values es finish)
  := by
  cases es with
  | nil =>
    intro h
    rw [inOrder]
    rw [List.append_nil] at h
    exact hfinish s values rfl h
  | cons e rest =>
    intro h
    obtain ⟨hvalues, hes⟩ := List.forall_mem_append.1 h
    obtain ⟨he, hrest⟩ := List.forall_mem_cons.1 hes
    have hnext : ∀ {c : Expr}, c.Orderly none → ∀ e ∈ values ++ [c] ++ rest, e.Orderly none :=
      fun hc => List.forall_mem_append.2 ⟨forall_mem_concat hvalues hc, hrest⟩
    rw [inOrder]
    split
    · exact hfinish s _ rfl h
    · split
      · refine (Yields.fresh "v").bind fun v _ => ?_
        refine (inOrder_orderly htable (s.binding [v]) _ rest finish hfinish
          (hnext (.var v))).bind fun body hbody => ?_
        refine (Yields.fresh "k").bind fun k _ => ?_
        refine (receiver_orderly v s.failure hbody).bind fun cont hcont => ?_
        refine (lower_orderly htable (s.delivering k) e he (.none _)).bind fun code hcode => ?_
        exact .pure (.binding (List.forall_mem_singleton.2 hcont) hcode)
      · split
        · exact inOrder_orderly htable s _ rest finish hfinish (hnext he)
        · refine (Yields.fresh "t").bind fun t _ => ?_
          refine (inOrder_orderly htable (s.binding [t]) _ rest finish hfinish
            (hnext (.var t))).bind fun body hbody => ?_
          exact .pure (.binding (List.forall_mem_singleton.2 he) hbody)
termination_by 3 * weightAll es + 2
decreasing_by
  all_goals
    have := e.weight_pos
    simp only [weightAll]
    omega

/-- Lowering a sequence. -/
theorem lowerSeq_orderly (htable : table.Orderly) (s : Scope) (before es : List Expr)
    (hbefore : ∀ e ∈ before, e.Orderly none) :
  ∀ {arity : Option Nat}, Expr.SeqOf Expr.Orderly arity es → s.Allows arity →
    Yields (·.Orderly none) (lowerSeq table s before es)
  := by
  cases es with
  | nil =>
    intro _ _ _
    rw [lowerSeq]
    exact .pure (.send (.blockAll hbefore))
  | cons e rest =>
    intro arity hes hs
    rw [lowerSeq]
    split
    · rename_i hneeds
      rw [Bool.not_eq_true'] at hneeds
      cases rest with
      | nil =>
        have he := orderly_of_not_needsLowering (hes.last e rfl) hs hneeds
        exact lowerSeq_orderly htable s _ [] (forall_mem_concat hbefore he)
          (show Expr.SeqOf Expr.Orderly arity [] from
            ⟨fun _ h => absurd h List.not_mem_nil, nofun⟩) hs
      | cons d rest =>
        obtain ⟨he, hrest⟩ := hes.uncons
        exact lowerSeq_orderly htable s _ (d :: rest) (forall_mem_concat hbefore he) hrest hs
    · cases rest with
      | nil =>
        rw [List.isEmpty_nil, if_pos rfl]
        refine (lower_orderly htable s e (hes.last e rfl) hs).bind fun code hcode => ?_
        exact .pure (.block (.concat hbefore hcode))
      | cons d rest =>
        obtain ⟨he, hrest⟩ := hes.uncons
        rw [List.isEmpty_cons, if_neg Bool.false_ne_true]
        refine (Yields.fresh "k").bind fun k _ => (Yields.fresh "_").bind fun ignored _ => ?_
        refine (handOver_orderly htable (s.binding [ignored]) (.block (d :: rest)) (.block hrest)
          (hs.of_head rfl)).bind fun after hafter => ?_
        refine (receiver_orderly ignored s.failure hafter).bind fun cont hcont => ?_
        refine (lower_orderly htable (s.delivering k) e he (.none _)).bind fun code hcode => ?_
        exact .pure (.block (.concat hbefore
          (.binding (List.forall_mem_singleton.2 hcont) hcode)))
termination_by 3 * weightAll es + 2
decreasing_by
  all_goals
    have := e.weight_pos
    grind [Expr.weight_block_le, weightAll]

/-- Lowering bindings. -/
theorem lowerBindings_orderly (htable : table.Orderly) (s : Scope)
    (before bindings : List (Symbol × Expr)) (tail : Tail)
    (hbefore : ∀ b ∈ before, b.2.Orderly none) :
  (∀ b ∈ bindings, b.2.Orderly none) → ∀ {arity : Option Nat}, tail.Orderly arity →
    s.Allows arity → Yields (·.Orderly none) (lowerBindings table s before bindings tail)
  := by
  cases bindings with
  | nil =>
    intro _ arity htail hs
    cases tail with
    | value body =>
      have hbody : body.Orderly arity := htail
      rw [lowerBindings]
      refine (handOver_orderly htable s body hbody hs).bind fun code hcode => ?_
      exact .pure (.binding hbefore hcode)
    | code code =>
      have hcode : code.Orderly none := htail
      rw [lowerBindings]
      exact .pure (.binding hbefore hcode)
  | cons b rest =>
    intro hbindings arity htail hs
    obtain ⟨he, hrest⟩ := List.forall_mem_cons.1 hbindings
    rw [lowerBindings]
    split
    · refine (lowerBindings_orderly htable (s.binding [b.1]) [] rest tail
        (fun _ h => absurd h List.not_mem_nil) hrest htail (hs.of_head rfl)).bind
        fun after hafter => ?_
      refine (Yields.fresh "k").bind fun k _ => ?_
      refine (receiver_orderly _ s.failure hafter).bind fun cont hcont => ?_
      refine (lower_orderly htable (s.delivering k) b.2 he (.none _)).bind fun code hcode => ?_
      exact .pure (.binding hbefore (.binding (List.forall_mem_singleton.2 hcont) hcode))
    · apply lowerBindings_orderly htable (s.binding [b.1]) _ rest tail _ hrest htail
        (hs.of_head rfl)
      exact List.forall_mem_append.2 ⟨hbefore, List.forall_mem_singleton.2 he⟩
termination_by 3 * (weightBindings bindings + tail.weight) + 2
decreasing_by
  all_goals
    simp only [weightBindings, Tail.weight]
    grind [Expr.weight_pos]

/-- Lowering a cleanup. -/
theorem lowerCleanup_orderly (htable : table.Orderly) (s : Scope) (cleanup : Option Expr) :
  (∀ e ∈ cleanup, e.Orderly none) →
    Yields (fun last => ∀ b ∈ last.bindings, b.2.Orderly none) (lowerCleanup table s cleanup)
  := by
  cases cleanup with
  | none =>
    intro _
    rw [lowerCleanup]
    exact .pure fun _ h => absurd h List.not_mem_nil
  | some e =>
    intro h
    have he := h e rfl
    have hblock : ∀ {last : Expr}, last.Orderly none →
        (Expr.block [e, last]).Orderly none := fun hlast =>
      .blockAll (List.forall_mem_cons.2 ⟨he, List.forall_mem_singleton.2 hlast⟩)
    rw [lowerCleanup]
    refine (Yields.fresh "k").bind fun success _ => (Yields.fresh "v").bind fun v _ => ?_
    refine (handOver_orderly htable (s.binding [v]) (.block [e, .var v]) (hblock (.var v))
      (.none _)).bind fun onValue honValue => ?_
    refine (receiver_orderly v s.failure honValue).bind fun successCont hsuccess => ?_
    refine (Yields.fresh "f").bind fun failure _ => (Yields.fresh "e").bind fun err _ => ?_
    refine (handOver_orderly htable (s.binding [err]) (.block [e, raising (.var err)])
      (hblock (raising_orderly (.var err))) (.none _)).bind fun onError honError => ?_
    refine (receiver_orderly err s.failure honError).bind fun failureCont hfailure => ?_
    exact .pure (List.forall_mem_cons.2 ⟨hsuccess, List.forall_mem_singleton.2 hfailure⟩)
termination_by 3 * weightCleanup cleanup + 16
decreasing_by
  all_goals
    simp only [weightCleanup, weight, weightAll, raising, Expr.block]
    omega

/-- Lowering clauses. -/
theorem lowerClauses_orderly (htable : table.Orderly) (s : Scope) (last : Landing)
    (clauses : List (Clause Expr)) (h : ∀ c ∈ clauses, c.body.Orderly none) :
  Yields (fun first => ∀ b ∈ first.bindings, b.2.Orderly none)
    (lowerClauses table s last clauses)
  := by
  rw [lowerClauses]
  split
  · exact .pure fun _ h => absurd h List.not_mem_nil
  · refine (Yields.fresh "f").bind fun failure _ => (Yields.fresh "e").bind fun err _ => ?_
    refine (lowerBodies_orderly htable _ clauses h).bind fun selected hselected => ?_
    have hselect : (Expr.call (.protect (raising (.var err)) selected none) []).Orderly none :=
      .call (.protect (raising_orderly (.var err)) hselected nofun)
        fun _ h => absurd h List.not_mem_nil
    refine (receiver_orderly err last.failure hselect).bind fun cont hcont => ?_
    exact .pure (List.forall_mem_singleton.2 hcont)
termination_by 3 * weightClauses clauses + 3
decreasing_by
  omega

/-- Lowering the bodies of clauses. -/
theorem lowerBodies_orderly (htable : table.Orderly) (s : Scope) (clauses : List (Clause Expr)) :
  (∀ c ∈ clauses, c.body.Orderly none) →
    Yields (fun selected => ∀ c ∈ selected, c.body.Orderly none) (lowerBodies table s clauses)
  := by
  cases clauses with
  | nil =>
    intro _
    rw [lowerBodies]
    exact .pure fun _ h => absurd h List.not_mem_nil
  | cons clause rest =>
    intro h
    obtain ⟨he, hrest⟩ := List.forall_mem_cons.1 h
    rw [lowerBodies]
    refine (handOver_orderly htable (s.binding [clause.var]) clause.body he (.none _)).bind
      fun code hcode => ?_
    refine (lowerBodies_orderly htable s rest hrest).bind fun selected hselected => ?_
    exact .pure (List.forall_mem_cons.2 ⟨.lambda hcode, hselected⟩)
termination_by 3 * weightClauses clauses + 2
decreasing_by
  all_goals
    have := clause.body.weight_pos
    simp only [weightClauses]
    omega

end

/-- A coroutine body that is orderly becomes an orderly function; lowering it never fails at a
re-entry. -/
theorem compile_orderly (htable : table.Orderly) {body : Expr} (h : body.Orderly none)
    (arity : Option Nat) :
  Yields (·.Orderly arity) (Coroutine.compile table body)
  := by
  unfold Coroutine.compile
  refine (Yields.fresh "k").bind fun success _ => (Yields.fresh "f").bind fun failure _ => ?_
  exact (handOver_orderly htable _ body h (.none _)).bind fun code hcode => .pure (.lambda hcode)

end Coroutine

/-! ### Forms -/

namespace Compile

open Compiling

variable {o : Options}

/-- Orderly trees are a kind of trees. -/
theorem orderly_kind (ho : o.flavors.Orderly) :
  Kind .all o Expr.Orderly
  where
  literal _ := .literal _
  var _ := .var _
  call := .call
  cond := .cond
  seq _ hes := .seq hes.before hes.last
  bind _ hbs := .bind fun b hb => (hbs b hb).2
  loop _ hbs := .loop fun b hb => (hbs b hb).2
  recur := .recur
  protect hbody hclauses := .protect hbody fun c hc => (hclauses c hc).2.2
  define _ := .define
  lambda _ _ := .lambda
  dynamically {_ depth bs body} _ _ hbs hbody := by
    have hargs : ∀ a ∈ bs.flatMap fun b => [.literal (.symbol b.1), b.2], a.Orderly none := by
      intro a ha
      obtain ⟨b, hb, ha⟩ := List.mem_flatMap.1 ha
      rcases List.mem_cons.1 ha with rfl | ha
      · exact .literal _
      · obtain rfl := List.mem_singleton.1 ha
        exact (hbs b hb).2
    refine .binding (List.forall_mem_singleton.2 (.call (.builtin _) hargs)) ?_
    refine .protect hbody (fun _ h => absurd h List.not_mem_nil) ?_
    rintro _ ⟨⟩
    exact .call (.builtin _) (List.forall_mem_singleton.2 (.var depth))
  coroutine _ htable hbody := (Coroutine.compile_orderly (ho _ _ htable) hbody _).makes

/-- Every form is compiled to an orderly tree. -/
theorem compile_orderly (ho : o.flavors.Orderly) (d : Datum) :
  Makes (·.Orderly none) (Compile.compile o d)
  := compile_kind (orderly_kind ho) trivial

/-- The body of a coroutine is compiled to a tree whose lowering never fails at a re-entry. -/
theorem body_lowers (ho : o.flavors.Orderly) {flavor : String} {table : Coroutine.Table}
    (htable : o.flavors.table flavor = .ok table) (ds : List Datum) :
  Makes (fun e => Yields (·.Orderly none) (Coroutine.compile table e)) (Compile.body o .top ds)
  := fun t e t' he => Coroutine.compile_orderly (ho flavor table htable)
    (body_kind (orderly_kind ho) .top (fun _ _ => trivial) t e t' he) none

end Compile

end Skein
