import Skein.Proofs.AlikeEnds
import Skein.Proofs.Apart
import Skein.Proofs.Written
import Mathlib.Data.List.Induction

/-!
# Forms that stop early

A conjunction evaluates its operands from left to right, until one is false, and has the value of
the last one that it has evaluated; a disjunction does so until one is true.  A chain of choices
evaluates its tests from left to right, until one is true, and then only the expression beside that
test.  In each of them the first operand that raises a condition ends the evaluation.

The value of an operand that decides is bound to a minted name while the operands after it are
evaluated.  None of them mentions that name, so that they are evaluated as they are without it.
-/

namespace Skein

open Run

variable {env env' : Env} {m m₁ m' : Machine} {e : Expr} {all : Bool}

/-! ### Evaluating trees for their values -/

/-- Evaluating a tree for its value ends. -/
def Expr.Evaluates (env : Env) (e : Expr) (m : Machine) (r : Ended Value) (m' : Machine) : Prop :=
  Eventually fun c f => (e.eval (Value.call c) f env).Gives m r m'

namespace Expr

variable {r : Ended TailResult}

/-- A tree ends, in the tail of a loop, as it does with some amounts of fuel. -/
theorem tailEnds_of_gives {c f : Nat} (h : (e.tail (Value.call c) f env).Gives m r m') :
  e.TailEnds env m r m'
  := by
  refine ⟨max c f, fun c' f' hc hf => ?_⟩
  exact Expr.tail_below (Value.call_below (by omega)) (by omega) env e _ _ _ h

/-- A tree ends, for its value, as it does with some amounts of fuel. -/
theorem evaluates_of_gives {c f : Nat} {s : Ended Value}
    (h : (e.eval (Value.call c) f env).Gives m s m') :
  e.Evaluates env m s m'
  := by
  refine ⟨max c f, fun c' f' hc hf => ?_⟩
  exact Expr.eval_below (Value.call_below (by omega)) (by omega) env e _ _ _ h

/-- How a conditional ends: in the branch that its test selects, or with the condition that its
test raises. -/
theorem tailEnds_cond_iff {test yes no : Expr} :
  (Expr.cond test yes no).TailEnds env m r m' ↔
    (∃ v m₁, test.Evaluates env m (.ok v) m₁ ∧
      (if v.isTruthy then yes else no).TailEnds env m₁ r m') ∨
    ∃ d, r = .error d ∧ test.Evaluates env m (.error d) m'
  := by
  constructor
  · rintro ⟨n, h⟩
    have h := h (n + 1) (n + 1) (Nat.le_succ n) (Nat.le_succ n)
    rcases gives_bind_iff.1 h with ⟨v, m₁, htest, hbranch⟩ | ⟨d, hd, htest⟩
    · exact .inl ⟨v, m₁, evaluates_of_gives htest, tailEnds_of_gives hbranch⟩
    · exact .inr ⟨d, hd, evaluates_of_gives htest⟩
  · rintro (⟨v, m₁, htest, hbranch⟩ | ⟨d, rfl, htest⟩)
    · exact (htest.and hbranch).succ fun c f h => h.1.bind h.2
    · exact htest.succ fun c f h => h.bind_error

/-- How a binding of one name around a body ends: as the body, or with the condition that the
initial value raises. -/
theorem tailEnds_binding_iff {x : Symbol} {body : Expr} :
  (Expr.binding [(x, e)] body).TailEnds env m r m' ↔
    (∃ v m₁, e.Evaluates env m (.ok v) m₁ ∧ body.TailEnds ((x, v) :: env) m₁ r m') ∨
    ∃ d, r = .error d ∧ e.Evaluates env m (.error d) m'
  := by
  constructor
  · rintro ⟨n, h⟩
    have h := h (n + 1) (n + 1) (Nat.le_succ n) (Nat.le_succ n)
    rcases gives_bind_iff.1 h with ⟨inner, m₁, hbs, hbody⟩ | ⟨d, hd, hbs⟩
    · rcases gives_bind_iff.1 hbs with ⟨v, m₂, hv, hinner⟩ | ⟨_, hd, -⟩
      · cases hinner
        exact .inl ⟨v, _, evaluates_of_gives hv, tailEnds_of_gives hbody⟩
      · cases hd
    · rcases gives_bind_iff.1 hbs with ⟨v, m₂, hv, hinner⟩ | ⟨_, hd', hv⟩
      · cases hinner
      · cases hd'
        exact .inr ⟨d, hd, evaluates_of_gives hv⟩
  · rintro (⟨v, m₁, hv, hbody⟩ | ⟨d, rfl, hv⟩)
    · have hbs : Eventually fun c f => (Eval.bindAll (fun env e => e.eval (Value.call c) f env) env
          [(x, e)]).Gives m (.ok ((x, v) :: env)) m₁ :=
        hv.mono fun c f h => h.bind (gives_pure _ _)
      exact (hbs.and hbody).succ fun c f h => h.1.bind h.2
    · have hbs : Eventually fun c f => (Eval.bindAll (fun env e => e.eval (Value.call c) f env) env
          [(x, e)]).Gives m (.error d) m' := hv.mono fun c f h => h.bind_error
      exact hbs.succ fun c f h => h.bind_error

/-- The innermost name is its value. -/
theorem tailEnds_var_iff {x : Symbol} {v : Value} :
  (Expr.var x).TailEnds ((x, v) :: env) m r m' ↔ r = .ok (.value v) ∧ m' = m
  := by
  have hends : (Expr.var x).Ends ((x, v) :: env) m (.ok v) m :=
    ends_var (by rw [List.lookup_cons, beq_self_eq_true])
  refine ⟨fun h => h.gives_unique hends, ?_⟩
  rintro ⟨rfl, rfl⟩
  exact hends

/-- The innermost name is evaluated to its value. -/
theorem evaluates_var_iff {x : Symbol} {v : Value} {s : Ended Value} :
  (Expr.var x).Evaluates ((x, v) :: env) m s m' ↔ s = .ok v ∧ m' = m
  := by
  have hends : (Expr.var x).Evaluates ((x, v) :: env) m (.ok v) m :=
    (ends_var (by rw [List.lookup_cons, beq_self_eq_true])).eval
  refine ⟨fun h => h.gives_unique hends, ?_⟩
  rintro ⟨rfl, rfl⟩
  exact hends

/-- A literal is its value. -/
theorem tailEnds_literal_iff {d : Datum} :
  (Expr.literal d).TailEnds env m r m' ↔ r = .ok (.value (.ofDatum d)) ∧ m' = m
  := by
  have hends : (Expr.literal d).Ends env m (.ok (.ofDatum d)) m := ends_literal d
  refine ⟨fun h => h.gives_unique hends, ?_⟩
  rintro ⟨rfl, rfl⟩
  exact hends

end Expr

/-! ### Operands in turn -/

/-- The scope around the operands after one that did not decide: its value is bound to the first
hidden name, if there is one. -/
def Env.hiding (env : Env) (v : Value) : List Symbol → Env
  | [] => env
  | x :: _ => (x, v) :: env

/-- Evaluating operands from left to right ends, where all of them have to be true, or else one of
them.  The values of those that do not decide are bound to hidden names while the others are
evaluated.  The last operand stands where the whole form stands. -/
inductive Expr.Decides (all : Bool) :
    List Symbol → Env → List Expr → Machine → Ended TailResult → Machine → Prop where
  | none {xs : List Symbol} {env : Env} {m : Machine} :
    Decides all xs env [] m (.ok (.value (if all then .bool true else .nil))) m
  | last {xs : List Symbol} {env : Env} {e : Expr} {m m' : Machine} {r : Ended TailResult}
    (h : e.TailEnds env m r m') : Decides all xs env [e] m r m'
  | raised {xs : List Symbol} {env : Env} {e : Expr} {es : List Expr} {m m' : Machine}
    {d : Condition Value} (hne : es ≠ []) (h : e.Evaluates env m (.error d) m') :
    Decides all xs env (e :: es) m (.error d) m'
  | decided {xs : List Symbol} {env : Env} {e : Expr} {es : List Expr} {m m' : Machine}
    {v : Value} (hne : es ≠ []) (h : e.Evaluates env m (.ok v) m') (hv : v.isTruthy = !all) :
    Decides all xs env (e :: es) m (.ok (.value v)) m'
  | next {xs : List Symbol} {env : Env} {e : Expr} {es : List Expr} {m m₁ m' : Machine}
    {v : Value} {r : Ended TailResult} (hne : es ≠ []) (h : e.Evaluates env m (.ok v) m₁)
    (hv : v.isTruthy = all) (hs : Decides all xs.tail (env.hiding v xs) es m₁ r m') :
    Decides all xs env (e :: es) m r m'

/-- No operand mentions a name that hides the value of an operand before it. -/
def Expr.Hidden : List Symbol → List Expr → Prop
  | x :: xs, _ :: es => (∀ e ∈ es, ¬ e.Mentions x) ∧ Hidden xs es
  | _, _ => True

/-- Evaluating clauses of a chain of choices from left to right ends.  A clause is a test, or none
if it is always chosen, and the expression beside it, which stands where the whole form stands. -/
inductive Expr.Chooses (env : Env) :
    List (Option Expr × Expr) → Machine → Ended TailResult → Machine → Prop where
  | none {m : Machine} : Chooses env [] m (.ok (.value .nil)) m
  | always {e : Expr} {cs : List (Option Expr × Expr)} {m m' : Machine} {r : Ended TailResult}
    (h : e.TailEnds env m r m') : Chooses env ((.none, e) :: cs) m r m'
  | raised {test e : Expr} {cs : List (Option Expr × Expr)} {m m' : Machine} {d : Condition Value}
    (h : test.Evaluates env m (.error d) m') : Chooses env ((some test, e) :: cs) m (.error d) m'
  | chosen {test e : Expr} {cs : List (Option Expr × Expr)} {m m₁ m' : Machine} {v : Value}
    {r : Ended TailResult} (htest : test.Evaluates env m (.ok v) m₁) (hv : v.isTruthy = true)
    (h : e.TailEnds env m₁ r m') : Chooses env ((some test, e) :: cs) m r m'
  | next {test e : Expr} {cs : List (Option Expr × Expr)} {m m₁ m' : Machine} {v : Value}
    {r : Ended TailResult} (htest : test.Evaluates env m (.ok v) m₁) (hv : v.isTruthy = false)
    (hs : Chooses env cs m₁ r m') : Chooses env ((some test, e) :: cs) m r m'

namespace Expr

variable {xs : List Symbol} {es : List Expr} {cs : List (Option Expr × Expr)}
  {r : Ended TailResult}

/-- How operands in turn end, when there is more than one. -/
theorem decides_cons_iff (hne : es ≠ []) :
  Decides all xs env (e :: es) m r m' ↔
    (∃ v m₁, e.Evaluates env m (.ok v) m₁ ∧
      ((v.isTruthy = all ∧ Decides all xs.tail (env.hiding v xs) es m₁ r m') ∨
        (v.isTruthy = !all ∧ r = .ok (.value v) ∧ m' = m₁))) ∨
    ∃ d, r = .error d ∧ e.Evaluates env m (.error d) m'
  := by
  constructor
  · intro h
    cases h with
    | last h => exact absurd rfl hne
    | raised _ h => exact .inr ⟨_, rfl, h⟩
    | decided _ h hv => exact .inl ⟨_, _, h, .inr ⟨hv, rfl, rfl⟩⟩
    | next _ h hv hs => exact .inl ⟨_, _, h, .inl ⟨hv, hs⟩⟩
  · rintro (⟨v, m₁, h, ⟨hv, hs⟩ | ⟨hv, rfl, rfl⟩⟩ | ⟨d, rfl, h⟩)
    · exact .next hne h hv hs
    · exact .decided hne h hv
    · exact .raised hne h

/-- What is compiled for an operand before others evaluates the operand, and then the others unless
it decides. -/
theorem tailEnds_operand_iff {x : Symbol} {rest : Expr} :
  (Expr.binding [(x, e)] (if all then .cond (.var x) rest (.var x) else
      .cond (.var x) (.var x) rest)).TailEnds env m r m' ↔
    (∃ v m₁, e.Evaluates env m (.ok v) m₁ ∧
      ((v.isTruthy = all ∧ rest.TailEnds ((x, v) :: env) m₁ r m') ∨
        (v.isTruthy = !all ∧ r = .ok (.value v) ∧ m' = m₁))) ∨
    ∃ d, r = .error d ∧ e.Evaluates env m (.error d) m'
  := by
  have hbranch : ∀ v m₁, (if all then Expr.cond (.var x) rest (.var x) else
      .cond (.var x) (.var x) rest).TailEnds ((x, v) :: env) m₁ r m' ↔
      (v.isTruthy = all ∧ rest.TailEnds ((x, v) :: env) m₁ r m') ∨
        (v.isTruthy = !all ∧ r = .ok (.value v) ∧ m' = m₁) := by
    intro v m₁
    cases all <;> cases hv : v.isTruthy <;>
      simp [tailEnds_cond_iff, evaluates_var_iff, tailEnds_var_iff, hv]
  simp only [tailEnds_binding_iff, hbranch]

/-- How a conditional ends that chooses between an expression and later clauses. -/
theorem chooses_test_iff {test : Expr} :
  Chooses env ((some test, e) :: cs) m r m' ↔
    (∃ v m₁, test.Evaluates env m (.ok v) m₁ ∧
      ((v.isTruthy = true ∧ e.TailEnds env m₁ r m') ∨
        (v.isTruthy = false ∧ Chooses env cs m₁ r m'))) ∨
    ∃ d, r = .error d ∧ test.Evaluates env m (.error d) m'
  := by
  constructor
  · intro h
    cases h with
    | raised h => exact .inr ⟨_, rfl, h⟩
    | chosen htest hv h => exact .inl ⟨_, _, htest, .inl ⟨hv, h⟩⟩
    | next htest hv hs => exact .inl ⟨_, _, htest, .inr ⟨hv, hs⟩⟩
  · rintro (⟨v, m₁, htest, ⟨hv, h⟩ | ⟨hv, hs⟩⟩ | ⟨d, rfl, h⟩)
    · exact .chosen htest hv h
    · exact .next htest hv hs
    · exact .raised h

end Expr

/-! ### Hidden names -/

/-- Scopes stay alike, for the names that some trees mention, around the operands after one that
did not decide. -/
theorem Env.Alike.hiding {W : World} {S : Symbol → Prop} {xs ys : List Symbol} {v v' : Value}
    (h : Env.Alike W S env env') {T : Symbol → Prop}
    (hT : ∀ x, T x → S x) (hxs : ∀ x ∈ xs.head?, ¬ T x) (hys : ∀ x ∈ ys.head?, ¬ T x) :
  Env.Alike W T (env.hiding v xs) (env'.hiding v' ys)
  := by
  have hlookup : ∀ {zs : List Symbol} {env : Env} {u : Value} {z : Symbol}, T z →
      (∀ x ∈ zs.head?, ¬ T x) → List.lookup z (env.hiding u zs) = List.lookup z env := by
    intro zs env u z hz hzs
    cases zs with
    | nil => rfl
    | cons x zs =>
      have hne : (z == x) = false := beq_eq_false_iff_ne.2 fun heq => hzs x rfl (heq ▸ hz)
      exact (List.lookup_cons ..).trans (by rw [hne])
  intro z hz
  rw [hlookup hz hxs, hlookup hz hys]
  exact h z (hT z hz)

namespace Expr

variable {own n : Nat} {W : World} {xs ys : List Symbol} {es : List Expr} {S : Symbol → Prop}

/-- The first hidden name is not mentioned by the operands after the first one, and the other
hidden names are hidden from them. -/
theorem Hidden.next (h : Hidden xs (e :: es)) :
  (∀ x ∈ xs.head?, ¬ ∃ d ∈ es, d.Mentions x) ∧ Hidden xs.tail es
  := by
  cases xs with
  | nil => exact ⟨nofun, trivial⟩
  | cons x xs =>
    refine ⟨?_, h.2⟩
    rintro _ ⟨⟩ ⟨d, hd, hx⟩
    exact h.1 d hd hx

/-- Evaluating a tree in alike scopes ends alike, in the tail of a loop. -/
theorem TailEnds.agree {r : Ended TailResult} (h : e.TailEnds env m r m₁)
    (hS : ∀ x, e.Mentions x → S x) (henv : Env.Alike W S env env')
    (hm : Machine.Alike own n W m m') :
  ∃ W' r' m₁', W ≤ W' ∧ Ended.Related TailResult.Alike W' r r' ∧
    Machine.Alike own n W' m₁ m₁' ∧ e.TailEnds env' m' r' m₁'
  := by
  obtain ⟨k, h⟩ := h
  obtain ⟨W', r', m₁', hW, hr, hm₁, hgives⟩ :=
    e.tail_gives hS henv (h k k (Nat.le_refl k) (Nat.le_refl k)) hm
  exact ⟨W', r', m₁', hW, hr, hm₁, tailEnds_of_gives hgives⟩

/-- Evaluating a tree for its value in alike scopes ends alike. -/
theorem Evaluates.agree {r : Ended Value} (h : e.Evaluates env m r m₁)
    (hS : ∀ x, e.Mentions x → S x) (henv : Env.Alike W S env env')
    (hm : Machine.Alike own n W m m') :
  ∃ W' r' m₁', W ≤ W' ∧ Ended.Related Value.Alike W' r r' ∧ Machine.Alike own n W' m₁ m₁' ∧
    e.Evaluates env' m' r' m₁'
  := by
  obtain ⟨k, h⟩ := h
  obtain ⟨W', r', m₁', hW, hr, hm₁, hgives⟩ :=
    e.eval_gives hS henv (h k k (Nat.le_refl k) (Nat.le_refl k)) hm
  exact ⟨W', r', m₁', hW, hr, hm₁, evaluates_of_gives hgives⟩

/-- Operands in turn end alike in alike scopes, whatever names hide the values of the operands that
did not decide. -/
theorem Decides.agree {r : Ended TailResult} (h : Decides all xs env es m r m₁)
    (hxs : Hidden xs es) (hys : Hidden ys es) (hS : ∀ x, (∃ e ∈ es, e.Mentions x) → S x)
    (henv : Env.Alike W S env env') (hm : Machine.Alike own n W m m') :
  ∃ W' r' m₁', W ≤ W' ∧ Ended.Related TailResult.Alike W' r r' ∧
    Machine.Alike own n W' m₁ m₁' ∧ Decides all ys env' es m' r' m₁'
  := by
  induction h generalizing W S ys env' m' with
  | none =>
    refine ⟨W, _, m', le_refl W, .ok (.value ?_), hm, .none⟩
    split <;> exact .scalar _
  | last h =>
    have hS : ∀ x, Mentions x _ → S x := fun x hx => hS x ⟨_, List.mem_cons_self, hx⟩
    obtain ⟨W', r', m₁', hW, hr, hm₁, hends⟩ := h.agree hS henv hm
    exact ⟨W', r', m₁', hW, hr, hm₁, .last hends⟩
  | raised hne h =>
    have hS : ∀ x, Mentions x _ → S x := fun x hx => hS x ⟨_, List.mem_cons_self, hx⟩
    obtain ⟨W', _, m₁', hW, _ | ⟨hd⟩, hm₁, hends⟩ := h.agree hS henv hm
    exact ⟨W', _, m₁', hW, .error hd, hm₁, .raised hne hends⟩
  | decided hne h hv =>
    have hS : ∀ x, Mentions x _ → S x := fun x hx => hS x ⟨_, List.mem_cons_self, hx⟩
    obtain ⟨W', _, m₁', hW, ⟨hvalue⟩, hm₁, hends⟩ := h.agree hS henv hm
    exact ⟨W', _, m₁', hW, .ok (.value hvalue), hm₁,
      .decided hne hends (hvalue.isTruthy_eq ▸ hv)⟩
  | @next xs env e es m m₁ m₂ v r hne h hv _ ih =>
    have hfirst : ∀ x, Mentions x _ → S x := fun x hx => hS x ⟨_, List.mem_cons_self, hx⟩
    obtain ⟨W₁, _, m₁', hW₁, ⟨hvalue⟩, hm₁, hends⟩ := h.agree hfirst henv hm
    obtain ⟨hx, hxs⟩ := hxs.next
    obtain ⟨hy, hys⟩ := hys.next
    have hrest : ∀ x, (∃ d ∈ es, d.Mentions x) → S x := by
      rintro x ⟨d, hd, hx⟩
      exact hS x ⟨d, List.mem_cons_of_mem _ hd, hx⟩
    obtain ⟨W₂, r', m₂', hW₂, hr, hm₂, hs⟩ :=
      ih hxs hys (fun _ h => h) ((henv.mono hW₁).hiding hrest hx hy) hm₁
    exact ⟨W₂, r', m₂', le_trans hW₁ hW₂, hr, hm₂,
      .next hne hends (hvalue.isTruthy_eq ▸ hv) hs⟩

end Expr

/-! ### Compiling -/

namespace Compile

open Compiling

variable {o : Options} {p : Position} {t t' : SymbolTable} {tree : Expr}

/-- What some operands are compiled to, on tables with the names of a table: the last one where the
whole form stands. -/
inductive Operands (o : Options) (p : Position) (t : SymbolTable) :
    List Datum → List Expr → Prop where
  | nil : Operands o p t [] []
  | last {d : Datum} {e : Expr} {u u' : SymbolTable} (hu : t.Within u)
    (h : form o p d u = .ok e u') : Operands o p t [d] [e]
  | cons {d : Datum} {ds : List Datum} {e : Expr} {es : List Expr} {u u' : SymbolTable}
    (hu : t.Within u) (h : form o p.operand d u = .ok e u') (hne : ds ≠ [])
    (hs : Operands o p t ds es) : Operands o p t (d :: ds) (e :: es)

/-- What the clauses of a chain of choices are compiled to, on tables with the names of a table. -/
inductive Clauses (o : Options) (p : Position) (t : SymbolTable) :
    List Datum → List (Option Expr × Expr) → Prop where
  | nil : Clauses o p t [] []
  | always {d : Datum} {ds : List Datum} {e : Expr} {cs : List (Option Expr × Expr)}
    {u u' : SymbolTable} (hu : t.Within u) (h : form o p d u = .ok e u')
    (hs : Clauses o p t ds cs) :
    Clauses o p t (.scalar (.keyword "else") :: d :: ds) ((none, e) :: cs)
  | test {test d : Datum} {ds : List Datum} {c e : Expr} {cs : List (Option Expr × Expr)}
    {u u' w w' : SymbolTable} (helse : test ≠ .scalar (.keyword "else")) (hw : t.Within w)
    (htest : form o p.operand test w = .ok c w') (hu : t.Within u)
    (h : form o p d u = .ok e u') (hs : Clauses o p t ds cs) :
    Clauses o p t (test :: d :: ds) ((some c, e) :: cs)

namespace Operands

variable {ds : List Datum} {es : List Expr}

/-- Operands that are compiled on larger tables are compiled on such tables. -/
theorem within (h : Operands o p t' ds es) (ht : t.Within t') :
  Operands o p t ds es
  := by
  induction h with
  | nil => exact .nil
  | last hu h => exact .last (ht.trans hu) h
  | cons hu h hne _ ih => exact .cons (ht.trans hu) h hne ih

/-- As many operands are compiled as there are. -/
theorem ne_nil (h : Operands o p t ds es) (hds : ds ≠ []) :
  es ≠ []
  := by
  cases h with
  | nil => exact absurd rfl hds
  | last => exact List.cons_ne_nil _ _
  | cons => exact List.cons_ne_nil _ _

/-- What operands are compiled to does not mention a name that was minted for them before, unless
they do. -/
theorem not_mentions (h : Operands o p t ds es) (ho : o.flavors.Discreet) {x : Symbol}
    (hx : Minted x) (ht : x ∈ t.names) (hds : ∀ d ∈ ds, ¬ d.Mentions x) :
  ∀ e ∈ es, ¬ e.Mentions x
  := by
  induction h with
  | nil => exact fun _ h => absurd h List.not_mem_nil
  | last hu h =>
    have hd := hds _ List.mem_cons_self
    exact List.forall_mem_singleton.2 (form_apart ho hx p hd (hu x ht) h).2
  | cons hu h _ _ ih =>
    obtain ⟨hd, hds⟩ := List.forall_mem_cons.1 hds
    exact List.forall_mem_cons.2 ⟨(form_apart ho hx p.operand hd (hu x ht) h).2, ih hds⟩

end Operands

/-- A conjunction or a disjunction is compiled to a tree that evaluates what its operands are
compiled to, and stops at the first one that decides. -/
theorem shortCircuit_decides (ho : o.flavors.Discreet) {ds : List Datum}
    (hds : ∀ d ∈ ds, ∀ y, d.Mentions y → y ∈ t.names)
    (h : shortCircuit o p all ds t = .ok tree t') :
  ∃ xs es, Operands o p t ds es ∧ Expr.Hidden xs es ∧ (∀ x ∈ xs, x ∉ t.names) ∧
    ∀ env m r m', tree.TailEnds env m r m' ↔ Expr.Decides all xs env es m r m'
  := by
  induction ds generalizing t tree with
  | nil =>
    rw [shortCircuit, pure_eq_ok_iff] at h
    obtain ⟨rfl, -⟩ := h
    refine ⟨[], [], .nil, trivial, fun _ h => absurd h List.not_mem_nil, fun env m r m' => ?_⟩
    have hliteral : (if all then Expr.literal (.scalar (.bool true)) else .nil).TailEnds env m r m' ↔
        r = .ok (.value (if all then .bool true else .nil)) ∧ m' = m := by
      cases all <;> exact Expr.tailEnds_literal_iff
    rw [hliteral]
    constructor
    · rintro ⟨rfl, rfl⟩
      exact .none
    · rintro ⟨⟩
      exact ⟨rfl, rfl⟩
  | cons d ds ih =>
    obtain ⟨hd, hds⟩ := List.forall_mem_cons.1 hds
    cases ds with
    | nil =>
      rw [shortCircuit] at h
      refine ⟨[], [tree], .last (.refl t) h, trivial, fun _ h => absurd h List.not_mem_nil,
        fun env m r m' => ⟨.last, fun h => ?_⟩⟩
      cases h with
      | last h => exact h
      | raised hne => exact absurd rfl hne
      | decided hne => exact absurd rfl hne
      | next hne => exact absurd rfl hne
    | cons d' ds =>
      rw [shortCircuit.eq_def] at h
      dsimp only at h
      obtain ⟨x, t₁, hx, h⟩ := bind_eq_ok_iff.1 h
      obtain ⟨first, t₂, hfirst, h⟩ := bind_eq_ok_iff.1 h
      obtain ⟨rest, t₃, hrest, h⟩ := bind_eq_ok_iff.1 h
      obtain ⟨rfl, rfl⟩ := pure_eq_ok_iff.1 h
      obtain ⟨hnew, hknown, ht₁⟩ := fresh_spec hx
      have ht₂ := ht₁.trans (form_grows o p.operand d t₁ first t₂ hfirst)
      obtain ⟨xs, es, hes, hhidden, hxs, hends⟩ :=
        ih (fun c hc y hy => ht₂ y (hds c hc y hy)) hrest
      have hminted : Minted x := minted_of_fresh (by cases all <;> decide) hx
      have hmentions : ∀ c ∈ d' :: ds, ¬ c.Mentions x := fun c hc hy => hnew (hds c hc x hy)
      refine ⟨x :: xs, first :: es, .cons ht₁ hfirst (List.cons_ne_nil _ _) (hes.within ht₂),
        ⟨hes.not_mentions ho hminted ?_ hmentions, hhidden⟩, ?_, fun env m r m' => ?_⟩
      · exact form_grows o p.operand d t₁ first t₂ hfirst x hknown
      · exact List.forall_mem_cons.2 ⟨hnew, fun y hy hin => hxs y hy (ht₂ y hin)⟩
      · rw [Expr.tailEnds_operand_iff, Expr.decides_cons_iff (hes.ne_nil (List.cons_ne_nil _ _))]
        simp only [hends, List.tail_cons, Env.hiding]

namespace Clauses

variable {ds : List Datum} {cs : List (Option Expr × Expr)}

/-- Clauses that are compiled on larger tables are compiled on such tables. -/
theorem within (h : Clauses o p t' ds cs) (ht : t.Within t') :
  Clauses o p t ds cs
  := by
  induction h with
  | nil => exact .nil
  | always hu h _ ih => exact .always (ht.trans hu) h ih
  | test helse hw htest hu h _ ih => exact .test helse (ht.trans hw) htest (ht.trans hu) h ih

end Clauses

/-- A chain of choices is compiled to a tree that evaluates what its clauses are compiled to, and
stops at the first one that is chosen. -/
theorem choices_chooses {ds : List Datum} (hlength : ds.length % 2 = 0)
    (h : choices o p ds t = .ok tree t') :
  t.Within t' ∧ ∃ cs, Clauses o p t ds cs ∧
    ∀ env m r m', tree.TailEnds env m r m' ↔ Expr.Chooses env cs m r m'
  := by
  induction ds using List.twoStepInduction generalizing tree t' with
  | nil =>
    rw [choices, pure_eq_ok_iff] at h
    · obtain ⟨rfl, rfl⟩ := h
      refine ⟨.refl t, [], .nil, fun env m r m' => Expr.tailEnds_literal_iff.trans ?_⟩
      constructor
      · rintro ⟨rfl, rfl⟩
        exact .none
      · rintro ⟨⟩
        exact ⟨rfl, rfl⟩
    · rintro _ _ _ ⟨⟩
  | singleton d => cases hlength
  | cons_cons test d ds ih _ =>
    rw [choices.eq_def] at h
    dsimp only at h
    obtain ⟨no, t₁, hno, h⟩ := bind_eq_ok_iff.1 h
    obtain ⟨yes, t₂, hyes, h⟩ := bind_eq_ok_iff.1 h
    have hlength : ds.length % 2 = 0 := by
      rw [List.length_cons, List.length_cons] at hlength
      omega
    obtain ⟨ht₁, cs, hcs, hends⟩ := ih hlength hno
    have ht₂ := ht₁.trans (form_grows o p d t₁ yes t₂ hyes)
    split at h
    · obtain ⟨rfl, rfl⟩ := pure_eq_ok_iff.1 h
      refine ⟨ht₂, (none, yes) :: cs, .always ht₁ hyes hcs, fun env m r m' => ⟨.always, ?_⟩⟩
      rintro ⟨⟩
      assumption
    · rename_i helse
      obtain ⟨c, t₃, hc, h⟩ := bind_eq_ok_iff.1 h
      obtain ⟨rfl, rfl⟩ := pure_eq_ok_iff.1 h
      refine ⟨ht₂.trans (form_grows o p.operand test t₂ c _ hc), (some c, yes) :: cs,
        .test helse ht₂ hc ht₁ hyes hcs, fun env m r m' => ?_⟩
      have hbranch : ∀ (v : Value) m₁, (if v.isTruthy then yes else no).TailEnds env m₁ r m' ↔
          (v.isTruthy = true ∧ yes.TailEnds env m₁ r m') ∨
            (v.isTruthy = false ∧ Expr.Chooses env cs m₁ r m') := by
        intro v m₁
        cases v.isTruthy <;> simp [hends]
      simp only [Expr.tailEnds_cond_iff, Expr.chooses_test_iff, hbranch]

end Compile

/-- Whatever ends in one way on a sound machine ends in another way too, with alike outcomes. -/
def World.EndAlike (own n : Nat) (W : World) (ends ends' : Ended TailResult → Machine → Prop) :
    Prop :=
  ∀ r m, ends r m → ∃ W' r' m', W ≤ W' ∧ Ended.Related TailResult.Alike W' r r' ∧
    Machine.Alike own n W' m m' ∧ ends' r' m'

/-- Forms that stop early evaluate their operands from left to right, and no operand after the one
that decides or raises a condition.  What a conjunction and a disjunction are compiled to binds the
values of operands to new names, which no operand after them mentions; on a sound machine it ends
like the operands do when each of them is evaluated in the scope around the form.  A chain of
choices evaluates its tests and the expression beside the first one that is true. -/
theorem Compile.stops_at_decisive_operand {o : Compile.Options} (ho : o.flavors.Discreet)
    (p : Compile.Position) {ds : List Datum} {t : SymbolTable}
    (hds : ∀ d ∈ ds, ∀ x, d.Mentions x → x ∈ t.names) :
  (∀ all tree t',
    Compile.form o p (.list (.symbol (if all then "and" else "or") :: ds)) t = .ok tree t' →
    ∃ xs es, Compile.Operands o p t ds es ∧ Expr.Hidden xs es ∧ (∀ x ∈ xs, x ∉ t.names) ∧
      (∀ env m r m', tree.TailEnds env m r m' ↔ Expr.Decides all xs env es m r m') ∧
      ∀ own n W env m, Env.Alike W (fun x => ∃ e ∈ es, e.Mentions x) env env →
        Machine.Alike own n W m m →
        World.EndAlike own n W (tree.TailEnds env m) (Expr.Decides all [] env es m) ∧
          World.EndAlike own n W (Expr.Decides all [] env es m) (tree.TailEnds env m)) ∧
  ∀ tree t', Compile.form o p (.list (.symbol "cond" :: ds)) t = .ok tree t' →
    ∃ cs, Compile.Clauses o p t ds cs ∧
      ∀ env m r m', tree.TailEnds env m r m' ↔ Expr.Chooses env cs m r m'
  := by
  refine ⟨fun all tree t' h => ?_, fun tree t' h => ?_⟩
  · have hform : Compile.form o p (.list (.symbol (if all then "and" else "or") :: ds)) =
        Compile.shortCircuit o p all ds := by
      cases all with
      | true => exact (Compile.form_special .conjunction ds).trans (by rw [Compile.special])
      | false => exact (Compile.form_special .disjunction ds).trans (by rw [Compile.special])
    rw [hform] at h
    obtain ⟨xs, es, hes, hhidden, hxs, hends⟩ := Compile.shortCircuit_decides ho hds h
    refine ⟨xs, es, hes, hhidden, hxs, hends, fun own n W env m henv hm => ⟨?_, ?_⟩⟩
    · intro r m₁ h
      exact ((hends _ _ _ _).1 h).agree hhidden trivial (fun _ h => h) henv hm
    · intro r m₁ h
      obtain ⟨W', r', m', hW, hr, hm', h⟩ := h.agree trivial hhidden (fun _ h => h) henv hm
      exact ⟨W', r', m', hW, hr, hm', (hends _ _ _ _).2 h⟩
  · have hform : Compile.form o p (.list (.symbol "cond" :: ds)) = Compile.special o p .cond ds :=
      Compile.form_special .cond ds
    rw [hform, Compile.special] at h
    split at h
    · rename_i hlength
      exact (Compile.choices_chooses hlength h).2
    · exact absurd h Compiling.throw_ne_ok

/-- A conjunction of two names, one of which looks like a name that is minted for it. -/
def namesLikeMinted : List Datum := [.symbol "and#1", .symbol "x"]

/-- The conjunction has the value of its second name, when the first one is true. -/
theorem namesLikeMinted_stop_early :
  ∃ t tree t', (∀ d ∈ namesLikeMinted, ∀ x, d.Mentions x → x ∈ t.names) ∧
    Compile.form ⟨.default, false⟩ .top (.list (.symbol "and" :: namesLikeMinted)) t =
      .ok tree t' ∧
    ∀ v m, tree.TailEnds [("and#1", .bool true), ("x", v)] m (.ok (.value v)) m
  := by
  have hnames : ∀ d ∈ namesLikeMinted, ∀ x, d.Mentions x →
      x ∈ (SymbolTable.insertAll .empty ["and#1", "x"]).names := by
    intro d hd x hx
    simp only [namesLikeMinted, List.mem_cons, List.not_mem_nil, or_false] at hd
    rcases hd with rfl | rfl <;> cases hx <;> decide +kernel
  have hform : Compile.form ⟨.default, false⟩ .top (.list (.symbol "and" :: namesLikeMinted)) = do
      let x ← fresh "and"
      return .binding [(x, .var "and#1")] (.cond (.var x) (.var "x") (.var x)) := by
    refine (Compile.form_special .conjunction _).trans ?_
    rw [Compile.special, namesLikeMinted, Compile.shortCircuit.eq_def]
    simp [Compile.shortCircuit, Compile.form, Datum.symbol]
  have hcompiles := congrFun hform (.insertAll .empty ["and#1", "x"])
  obtain ⟨xs, es, hes, -, hxs, hends, -⟩ :=
    (Compile.stops_at_decisive_operand Coroutine.Flavors.discreet_default .top hnames).1
      true _ _ hcompiles
  have hsymbol : ∀ p x, Compile.form ⟨.default, false⟩ p (.symbol x) = pure (.var x) :=
    fun p x => by rw [Datum.symbol, Compile.form]
  cases hes with
  | @cons _ _ first _ _ _ _ hfirst _ hrest =>
  cases hrest with
  | @cons _ _ _ _ _ _ _ _ hne => exact absurd rfl hne
  | @last _ second _ _ _ hlast =>
  rw [hsymbol, Compiling.pure_eq_ok_iff] at hfirst hlast
  obtain ⟨rfl, -⟩ := hfirst
  obtain ⟨rfl, -⟩ := hlast
  refine ⟨_, _, _, hnames, hcompiles, fun v m => (hends _ _ _ _).2 ?_⟩
  have hfirst : (Expr.var "and#1").Ends [("and#1", .bool true), ("x", v)] m (.ok (.bool true)) m :=
    Expr.ends_var rfl
  refine .next (List.cons_ne_nil _ _) hfirst.eval rfl (.last (Expr.ends_var ?_))
  cases xs with
  | nil => rfl
  | cons y ys =>
    have hne : "x" ≠ y := by
      rintro rfl
      exact hxs _ List.mem_cons_self (by decide +kernel)
    rw [Env.hiding, List.lookup_cons, beq_eq_false_iff_ne.2 hne]
    rfl

end Skein
