import Skein.Proofs.Apart
import Skein.Proofs.Meaning
import Skein.Proofs.Written

/-!
# Counted loops

A counted loop evaluates its count once, and then its body once for each number below the count,
in their order.  It is compiled to a loop that compares and adds by the functions that the names
`<` and `inc` refer to where the body stands.  So it counts like that as long as each turn finds
the functions of these names that a program has from the start; a body, a counter or a scope in
which they mean something else makes the loop count otherwise.

The turns are evaluated by the evaluator, and inside of a coroutine by the code that the loop
becomes when its body can suspend.
-/

namespace Skein

open Coroutine (Table)
open Run

/-! ### Turns -/

/-- The function that compares numbers. -/
def Value.less : Value := .native (.primitive (.comparison .less))

/-- The function that adds one. -/
def Value.increment : Value := .native (.primitive (.arithmetic .increment))

/-- The scope of a counted loop in the turn with a number. -/
def Env.counting (env : Env) (counter limit : Symbol) (n : Int64) (k : Nat) : Env :=
  (counter, .int (.ofNat k)) :: (limit, .int n) :: env

/-- How the body of a loop is evaluated in a scope, with the contexts of the last suspension before
and after it. -/
def BodyRun := Env → Option (Context Value) → Machine → Option (Context Value) → Machine → Prop

/-- The evaluator evaluates the trees of a body. -/
def BodyRun.evaluated (es : List Expr) : BodyRun := fun env last m last' m' =>
  last' = last ∧ ∃ vs, Expr.AllEnd env es m (.ok vs) m'

/-- The code of a coroutine evaluates the trees of a body. -/
def BodyRun.lowered (es : List Expr) : BodyRun := fun env last m last' m' =>
  ∃ vs, Direct .lowered true (.trees es) env last m (.ok (.values vs)) last' m'

/-- The turns of a counted loop, `c` of them from the one with the number `k` on.  In each turn the
counter is found to be less than the limit, the body is evaluated, and one is added to the
counter. -/
inductive Turns (manner : Manner) (run : BodyRun) (env : Env) (counter limit : Symbol) (n : Int64) :
    (k c : Nat) → Option (Context Value) → Machine → Option (Context Value) → Machine → Prop where
  | none {k last m} : Turns manner run env counter limit n k 0 last m last m
  | next {k c last last₁ last' m m₁ m₂ m₃ m₄ m'}
    (hless : (Run.lookup (env.counting counter limit n k) "<").Gives m (.ok .less) m₁)
    (hbody : run (env.counting counter limit n k) last m₁ last₁ m₂)
    (hnext : (Run.lookup (env.counting counter limit n k) "inc").Gives m₂ (.ok .increment) m₃)
    (henters : manner.enters last₁ m₃ m₄)
    (hs : Turns manner run env counter limit n (k + 1) c last₁ m₄ last' m') :
    Turns manner run env counter limit n k (c + 1) last m last' m'

/-- A loop counts up to a limit: it takes a turn for each number from zero on that is less than the
limit, and then finds that the counter is not less than the limit. -/
def CountsUp (manner : Manner) (run : BodyRun) (env : Env) (counter limit : Symbol) (n : Int64)
    (last : Option (Context Value)) (m : Machine) (last' : Option (Context Value))
    (m' : Machine) : Prop :=
  ∃ m₁, Turns manner run env counter limit n 0 n.toInt.toNat last m last' m₁ ∧
    (Run.lookup (env.counting counter limit n n.toInt.toNat) "<").Gives m₁ (.ok .less) m'

/-- A counted loop in a coroutine counts up to its limit: in the code of the coroutine when its body
can suspend, and otherwise in the evaluator, where nothing is left behind. -/
inductive CountsUpInCoroutine (es : List Expr) (env : Env) (counter limit : Symbol) (n : Int64)
    (last : Option (Context Value)) (m : Machine) : Option (Context Value) → Machine → Prop where
  | lowered {last' m'} (hes : ∃ e ∈ es, e.reaches Table.default.has = true)
    (h : CountsUp .lowered (.lowered es) env counter limit n last m last' m') :
    CountsUpInCoroutine es env counter limit n last m last' m'
  | evaluated {last' m'} (hes : ∀ e ∈ es, e.reaches Table.default.has = false)
    (h : CountsUp .evaluated (.evaluated es) env counter limit n last m last' m')
    (hq : Quiet m m') : CountsUpInCoroutine es env counter limit n last m last' m'

variable {env : Env} {counter limit : Symbol} {n : Int64} {k c : Nat} {m m₁ m₂ m' : Machine}
  {last last₁ last' : Option (Context Value)} {es : List Expr}

/-! ### Looking up, comparing and adding -/

/-- A name that is bound is found without a trace. -/
theorem gives_lookup {x : Symbol} {v : Value} (h : List.lookup x env = some v) :
  (Run.lookup env x).Gives m (.ok v) m
  := by
  rw [Run.lookup, h]
  exact gives_pure v m

/-- Other names than the counter and the limit have the same values in each turn as around the
loop. -/
theorem lookup_counting {x : Symbol} (hcounter : x ≠ counter) (hlimit : x ≠ limit) :
  List.lookup x (env.counting counter limit n k) = List.lookup x env
  := by
  rw [Env.counting, List.lookup_cons, beq_eq_false_iff_ne.2 hcounter, List.lookup_cons,
    beq_eq_false_iff_ne.2 hlimit]

/-- Looking up a name leaves nothing behind. -/
theorem quiet_of_lookup {x : Symbol} {v : Value} (h : (Run.lookup env x).Gives m (.ok v) m') :
  Quiet m m'
  := by
  unfold Run.lookup at h
  split at h
  · obtain ⟨-, rfl⟩ := h.unique (gives_pure _ m)
    exact ⟨rfl, rfl⟩
  · obtain ⟨_, m₁, hnote, h⟩ | ⟨d, hd, -⟩ := gives_bind_iff.1 h
    · obtain ⟨m₂, _, hget, h⟩ | ⟨d, hd, -⟩ := gives_bind_iff.1 h
      · cases hnote
        cases hget
        split at h
        · obtain ⟨-, rfl⟩ := h.unique (gives_pure _ _)
          exact ⟨rfl, rfl⟩
        · cases h
      · cases hd
    · cases hd

/-- A name is evaluated by looking it up. -/
theorem Expr.ends_of_lookup {x : Symbol} {v : Value}
    (h : (Run.lookup env x).Gives m (.ok v) m') :
  (Expr.var x).Ends env m (.ok v) m'
  := by
  apply (Eventually.of_forall (P := fun _ _ => True) fun _ _ => trivial).succ
  intro c f _
  exact h.bind (gives_pure _ _)

/-- Comparing two integers. -/
theorem Value.callEnds_less (a b : Int64) :
  Value.less.CallEnds [.int a, .int b] m (.ok (.bool (decide (a.toInt < b.toInt)))) m
  := by
  apply Expr.callEnds_native
  refine .of_forall fun c f => ?_
  have hordered : ComparisonOp.ordered "<" (·.isLT) [.int a, .int b] =
      pure (decide (a.toInt < b.toInt)) := by
    by_cases h : a.toInt < b.toInt <;>
      simp [ComparisonOp.ordered, ComparisonOp.order, Value.int, Int.compare_eq_lt, h]
  have happly : ComparisonOp.apply .less [.int a, .int b] =
      pure (.bool (decide (a.toInt < b.toInt))) := by
    change ComparisonOp.ordered "<" (·.isLT) _ >>= _ = _
    rw [hordered]
    rfl
  change (ComparisonOp.apply .less [.int a, .int b]).Gives m _ m
  rw [happly]
  exact gives_pure _ m

/-- Adding one to an integer that is not the largest one. -/
theorem Value.callEnds_increment (h : (k : Int) < n.toInt) :
  Value.increment.CallEnds [.int (.ofNat k)] m (.ok (.int (.ofNat (k + 1)))) m
  := by
  apply Expr.callEnds_native
  refine .of_forall fun c f => ?_
  have hn : n.toInt < 2 ^ 63 := n.toInt_lt
  have hk : (Int64.ofNat k).toInt = k := Int64.toInt_ofNat_of_lt (by omega)
  have hsum : 1 + (Int64.ofNat k).toInt = (k + 1 : Nat) := by omega
  have hfits : Number.fitsWord (k + 1 : Nat) = true := by
    have hmin : Int64.minValue.toInt = -2 ^ 63 := rfl
    have hmax : Int64.maxValue.toInt = 2 ^ 63 - 1 := rfl
    rw [Number.fitsWord, hmin, hmax, Bool.and_eq_true, decide_eq_true_iff, decide_eq_true_iff]
    omega
  have hword : Number.word? (k + 1 : Nat) = some (.ofNat (k + 1)) := by
    rw [Number.word?, if_pos hfits, Int64.ofInt_eq_ofNat]
  have happly : ArithmeticOp.apply .increment [.int (.ofNat k)] =
      pure (.int (.ofNat (k + 1))) := by
    simp only [ArithmeticOp.apply, ArithmeticOp.compute, ArithmeticOp.accumulate,
      ArithmeticOp.argument, Numeric.ofValue?, Value.int, ArithmeticOp.combine, pure_bind,
      ArithmeticOp.exact, Int64.toInt_one, hsum, hword]
    rfl
  change (ArithmeticOp.apply .increment [.int (.ofNat k)]).Gives m _ m
  rw [happly]
  exact gives_pure _ m

/-! ### The tree of a counted loop -/

namespace Expr

/-- The test of a counted loop. -/
def belowLimit (counter limit : Symbol) : Expr := .call (.var "<") [.var counter, .var limit]

/-- The re-entry of a counted loop. -/
def nextTurn (counter : Symbol) : Expr := .recur [.call (.var "inc") [.var counter]]

/-- What the body of a counted loop is part of: a test, and the body before the next turn. -/
def turn (counter limit : Symbol) (es : List Expr) : Expr :=
  .cond (belowLimit counter limit) (.block (es ++ [nextTurn counter])) .nil

/-- A loop that counts from zero. -/
def counted (counter limit : Symbol) (es : List Expr) : Expr :=
  .loop [(counter, .literal (.scalar (.int 0)))] (turn counter limit es)

/-- The test of a turn compares the counter with the limit. -/
theorem ends_belowLimit (hne : limit ≠ counter) (hk : k ≤ n.toInt.toNat)
    (h : (Run.lookup (env.counting counter limit n k) "<").Gives m (.ok .less) m₁) :
  (belowLimit counter limit).Ends (env.counting counter limit n k) m
    (.ok (.bool (decide (k < n.toInt.toNat)))) m₁
  := by
  have hcounter : List.lookup counter (env.counting counter limit n k) = some (.int (.ofNat k)) := by
    rw [Env.counting, List.lookup_cons, beq_self_eq_true]
  have hlimit : List.lookup limit (env.counting counter limit n k) = some (.int n) := by
    rw [Env.counting, List.lookup_cons, beq_eq_false_iff_ne.2 hne, List.lookup_cons,
      beq_self_eq_true]
  have hn : n.toInt < 2 ^ 63 := n.toInt_lt
  have hint : (Int64.ofNat k).toInt = k := Int64.toInt_ofNat_of_lt (by omega)
  have hlt : decide ((Int64.ofNat k).toInt < n.toInt) = decide (k < n.toInt.toNat) := by
    rw [hint, decide_eq_decide]
    omega
  have hcall := Value.callEnds_less (m := m₁) (.ofNat k) n
  rw [hlt] at hcall
  exact ends_call (.cons (ends_of_lookup h) (.cons (ends_var hcounter) (.cons (ends_var hlimit) .nil)))
    hcall

/-- The argument of the re-entry is the next number. -/
theorem ends_next (hk : k < n.toInt.toNat)
    (h : (Run.lookup (env.counting counter limit n k) "inc").Gives m (.ok .increment) m₁) :
  (Expr.call (.var "inc") [.var counter]).Ends (env.counting counter limit n k) m
    (.ok (.int (.ofNat (k + 1)))) m₁
  := by
  have hcounter : List.lookup counter (env.counting counter limit n k) = some (.int (.ofNat k)) := by
    rw [Env.counting, List.lookup_cons, beq_self_eq_true]
  exact ends_call (.cons (ends_of_lookup h) (.cons (ends_var hcounter) .nil))
    (Value.callEnds_increment (n := n) (by omega))

/-! ### Evaluating a counted loop -/

/-- The last turn of a counted loop ends it. -/
theorem ends_turn_limit (hne : limit ≠ counter) (hk : k = n.toInt.toNat)
    (h : (Run.lookup (env.counting counter limit n k) "<").Gives m (.ok .less) m₁) :
  (turn counter limit es).Ends (env.counting counter limit n k) m (.ok .nil) m₁
  := by
  have htest := ends_belowLimit hne (Nat.le_of_eq hk) h
  rw [decide_eq_false (by omega)] at htest
  exact tailEnds_cond htest (ends_literal _)

/-- A counted loop that is evaluated counts up to its limit. -/
theorem loopEnds_of_turns (hne : limit ≠ counter)
    (h : Turns .evaluated (.evaluated es) env counter limit n k c last m last' m₁)
    (hc : k + c = n.toInt.toNat)
    (hlast : (Run.lookup (env.counting counter limit n n.toInt.toNat) "<").Gives m₁ (.ok .less) m') :
  last' = last ∧ LoopEnds ((limit, .int n) :: env) [counter] (turn counter limit es)
    (env.counting counter limit n k) m (.ok .nil) m'
  := by
  induction h with
  | none =>
    obtain rfl : _ = n.toInt.toNat := hc
    exact ⟨rfl, .done (ends_turn_limit hne rfl hlast)⟩
  | @next k _ _ _ _ m _ _ _ m₁ _ hless hbody hnext henters hs ih =>
    obtain ⟨rfl, vs, hes⟩ := hbody
    obtain rfl := henters
    obtain ⟨rfl, hloop⟩ := ih (by omega) hlast
    have htest := ends_belowLimit hne (by omega) hless
    rw [decide_eq_true (by omega)] at htest
    have hturn : (turn counter limit es).TailEnds (env.counting counter limit n k) m
        (.ok (.again [.int (.ofNat (k + 1))])) m₁ :=
      tailEnds_cond htest (tailEnds_block hes
        (tailEnds_recur (.cons (ends_next (by omega) hnext) .nil)))
    exact ⟨rfl, .again hturn hloop⟩

/-- A counted loop that is evaluated counts up to its limit, and has no value. -/
theorem ends_counted (hne : limit ≠ counter)
    (h : CountsUp .evaluated (.evaluated es) env counter limit n last m last' m') :
  last' = last ∧ (counted counter limit es).Ends ((limit, .int n) :: env) m (.ok .nil) m'
  := by
  obtain ⟨m₁, hturns, hlast⟩ := h
  obtain ⟨rfl, hloop⟩ := loopEnds_of_turns hne hturns (Nat.zero_add _) hlast
  exact ⟨rfl, ends_loop (.cons (ends_literal _) .nil) hloop⟩

/-! ### A counted loop in a coroutine -/

/-- A call of a function that is no breakpoint with atoms need not be lowered. -/
theorem not_needs_call_var {f : Symbol} {args : List Expr} {inner : Bool}
    (hf : Table.default.has f = false) (hargs : ∀ a ∈ args, a.isAtom = true) :
  ¬ (Expr.call (.var f) args).Needs inner
  := by
  have hchildren : ∀ c ∈ (Expr.call (.var f) args).children,
      c.reaches Table.default.has = false ∧ c.recurs = false := by
    intro c hc
    have hatom : c.isAtom = true := by
      rcases List.mem_cons.1 hc with rfl | hc
      · rfl
      · exact hargs c hc
    have hneeds : ¬ c.Needs true := not_needs_of_isAtom hatom
    rwa [Needs, Bool.true_and, Bool.not_eq_true, Bool.or_eq_false_iff] at hneeds
  have hreaches : (Expr.call (.var f) args).reaches Table.default.has = false := by
    rw [reaches_eq, calledBreakpoint?, hf, Bool.or_eq_false_iff, List.any_eq_false]
    exact ⟨rfl, fun c hc => Bool.eq_false_iff.1 (hchildren c hc).1⟩
  have hrecurs : (Expr.call (.var f) args).recurs = false := by
    rw [recurs_eq, Bool.or_eq_false_iff, Bool.and_eq_false_iff, List.any_eq_false]
    exact ⟨rfl, .inr fun c hc => Bool.eq_false_iff.1 (hchildren c hc).2⟩
  rw [Needs, hreaches, hrecurs, Bool.and_false]
  exact Bool.false_ne_true

/-- The test of a counted loop need not be lowered. -/
theorem not_needs_belowLimit {inner : Bool} :
  ¬ (belowLimit counter limit).Needs inner
  := not_needs_call_var (by decide) (List.forall_mem_cons.2 ⟨rfl, List.forall_mem_singleton.2 rfl⟩)

/-- The argument of the re-entry of a counted loop need not be lowered. -/
theorem not_needs_next {inner : Bool} :
  ¬ (Expr.call (.var "inc") [.var counter]).Needs inner
  := not_needs_call_var (by decide) (List.forall_mem_singleton.2 rfl)

/-- The re-entry of a counted loop has to be lowered with the loop. -/
theorem needs_nextTurn :
  (nextTurn counter).Needs true
  := by
  have hrecurs : (nextTurn counter).recurs = true := by
    rw [nextTurn, recurs_eq, isRecur, Bool.true_or]
  rw [Needs, hrecurs, Bool.true_and, Bool.or_true]

/-- A sequence can suspend exactly when one of its trees can. -/
theorem reaches_block_iff {fs : List Expr} {p : Symbol → Bool} :
  (Expr.block fs).reaches p = true ↔ ∃ c ∈ fs, c.reaches p = true
  := by
  unfold Expr.block
  split
  · rw [Expr.nil, reaches_eq]
    simp [calledBreakpoint?, children]
  · simp
  · rw [reaches_eq]
    simp [calledBreakpoint?, children]

/-- A turn can suspend exactly when the body of the counted loop can. -/
theorem reaches_turn_iff :
  (turn counter limit es).reaches Table.default.has = true ↔
    ∃ e ∈ es, e.reaches Table.default.has = true
  := by
  have hplainTest : ¬ (belowLimit counter limit).Needs false := not_needs_belowLimit
  have htest := reaches_of_not_needs hplainTest
  have hplainNext : ¬ (Expr.call (.var "inc") [.var counter]).Needs false := not_needs_next
  have hnext : (nextTurn counter).reaches Table.default.has = false := by
    rw [nextTurn, reaches_eq]
    simp [calledBreakpoint?, children, reaches_of_not_needs hplainNext]
  have hnil : Expr.nil.reaches Table.default.has = false := by
    rw [Expr.nil, reaches_eq]
    rfl
  rw [turn, reaches_eq]
  simp only [calledBreakpoint?, children, Option.isSome_none, Bool.false_or, List.any_cons, htest,
    hnil, List.any_nil, Bool.or_false, reaches_block_iff, List.mem_append, List.mem_singleton]
  constructor
  · rintro ⟨e, he | rfl, hreaches⟩
    · exact ⟨e, he, hreaches⟩
    · rw [hnext] at hreaches
      cases hreaches
  · rintro ⟨e, he, hreaches⟩
    exact ⟨e, .inl he, hreaches⟩

/-- A counted loop can suspend exactly when its body can. -/
theorem reaches_counted_iff :
  (counted counter limit es).reaches Table.default.has = true ↔
    ∃ e ∈ es, e.reaches Table.default.has = true
  := by
  have hliteral : (Expr.literal (.scalar (.int 0))).reaches Table.default.has = false := by
    rw [reaches_eq]
    rfl
  have hturn : (counted counter limit es).reaches Table.default.has =
      (turn counter limit es).reaches Table.default.has := by
    rw [counted, reaches_eq]
    simp [calledBreakpoint?, children, hliteral]
  rw [hturn]
  exact reaches_turn_iff

/-- A counted loop has to be lowered exactly when its body can suspend. -/
theorem needs_counted_iff {inner : Bool} :
  (counted counter limit es).Needs inner ↔ ∃ e ∈ es, e.reaches Table.default.has = true
  := by
  have hrecurs : (counted counter limit es).recurs = false := by
    rw [counted, recurs_eq]
    rfl
  rw [Needs, hrecurs, Bool.and_false, Bool.or_false]
  exact reaches_counted_iff

/-- A binding has to be lowered when its initial value has to be. -/
theorem needs_binding {inner : Bool} {x : Symbol} {e body : Expr} (h : e.Needs inner) :
  (Expr.bind [(x, e)] body).Needs inner
  := by
  rw [Needs, Bool.or_eq_true, Bool.and_eq_true] at h ⊢
  rw [reaches_eq, recurs_eq]
  rcases h with h | ⟨hinner, h⟩
  · exact .inl (by simp [children, h])
  · exact .inr ⟨hinner, by simp [children, isLoop, h]⟩

end Expr

/-- Trees in turn and a last one are statements. -/
theorem Direct.statements_concat {manner : Manner} {inner : Bool} {e : Expr} {vs : List Value}
    {r : Ended Yield}
    (hes : Direct manner inner (.trees es) env last m (.ok (.values vs)) last₁ m₁)
    (h : Direct manner inner (.tree e) env last₁ m₁ r last' m') :
  Direct manner inner (.statements (es ++ [e])) env last m r last' m'
  := by
  induction es generalizing last m vs with
  | nil =>
    cases hes with
    | treesNil => exact .statementsLast h
  | cons d es ih =>
    cases hes with
    | treesCons hd hs => exact .statementsCons (by simp) hd (ih hs)

/-- In the code of a coroutine, the turns of a counted loop end it where a counted loop does. -/
theorem Direct.iterate_counted (hne : limit ≠ counter)
    (hes : ∃ e ∈ es, e.reaches Table.default.has = true)
    (h : Turns .lowered (.lowered es) env counter limit n k c last m last' m₁)
    (hc : k + c = n.toInt.toNat)
    (hlast : (Run.lookup (env.counting counter limit n n.toInt.toNat) "<").Gives m₁ (.ok .less) m') :
  Direct .lowered true (.iterate ((limit, .int n) :: env) [counter] (Expr.turn counter limit es))
    (env.counting counter limit n k) last m (.ok (.value .nil)) last' m'
  := by
  have hneeds : (Expr.turn counter limit es).Needs true := by
    rw [Expr.Needs, Expr.reaches_turn_iff.2 hes, Bool.true_or]
  have htest : ∀ {k m m₁} last, k ≤ n.toInt.toNat →
      (Run.lookup (env.counting counter limit n k) "<").Gives m (.ok .less) m₁ →
      Direct .lowered true (.tree (Expr.belowLimit counter limit)) (env.counting counter limit n k)
        last m (.ok (.value (.bool (decide (k < n.toInt.toNat))))) last m₁ := by
    intro k m m₁ last hk h
    exact .plain (r := .ok _) Expr.not_needs_belowLimit (Expr.ends_belowLimit hne hk h)
      (quiet_of_lookup h)
  induction h with
  | @none _ last _ =>
    obtain rfl : _ = n.toInt.toNat := hc
    have htest := htest last (Nat.le_refl _) hlast
    rw [decide_eq_false (Nat.lt_irrefl _)] at htest
    exact .done (r := .ok _) (.cond hneeds htest
      (.plain (r := .ok _) (not_needs_of_isAtom rfl) (Expr.ends_literal _) ⟨rfl, rfl⟩))
  | @next k _ last last₁ _ m _ _ m₃ _ _ hless hbody hnext henters hs ih =>
    obtain ⟨vs, hbody⟩ := hbody
    have htest := htest last (by omega) hless
    rw [decide_eq_true (by omega)] at htest
    have hrecur : Direct .lowered true (.tree (Expr.nextTurn counter))
        (env.counting counter limit n k) last₁ _ (.ok (.again [.int (.ofNat (k + 1))])) last₁ m₃ :=
      .recur Expr.needs_nextTurn (.treesCons (.plain (r := .ok _) Expr.not_needs_next
        (Expr.ends_next (by omega) hnext) (quiet_of_lookup hnext)) .treesNil)
    have hturn : Direct .lowered true (.tree (Expr.turn counter limit es))
        (env.counting counter limit n k) last m (.ok (.again [.int (.ofNat (k + 1))])) last₁ m₃ := by
      obtain ⟨e, he, hreaches⟩ := hes
      have hblock : Expr.block (es ++ [Expr.nextTurn counter]) =
          .seq (es ++ [Expr.nextTurn counter]) := Expr.block_append (List.ne_nil_of_mem he) _
      refine .cond hneeds htest ?_
      change Direct .lowered true (.tree (Expr.block (es ++ [Expr.nextTurn counter]))) _ _ _ _ _ _
      rw [hblock]
      exact .seq (Expr.needs_of_child (List.mem_append_left _ he) hreaches)
        (hbody.statements_concat hrecur)
    exact .again hturn henters (ih (by omega) hlast)

/-- A tree in a coroutine that need not be lowered is evaluated, and leaves nothing behind. -/
theorem Direct.evaluated {inner : Bool} {e : Expr} {v : Value}
    (h : Direct .lowered inner (.tree e) env last m (.ok (.value v)) last' m')
    (hn : ¬ e.Needs inner) :
  last' = last ∧ e.Ends env m (.ok v) m' ∧ Quiet m m'
  := by
  generalize hr : (Except.ok (.value v) : Ended Yield) = r at h
  cases h with
  | @plain _ _ _ _ _ _ r _ h hq =>
    cases r with
    | ok w =>
      cases hr
      exact ⟨rfl, h, hq⟩
    | error d => cases hr
  | _ => contradiction

/-- A counted loop in a coroutine evaluates its count, and counts up to it. -/
theorem Direct.counted {inner : Bool} {e : Expr} (hne : limit ≠ counter)
    (he : Direct .lowered inner (.tree e) env last m (.ok (.value (.int n))) last₁ m₁)
    (h : CountsUpInCoroutine es env counter limit n last₁ m₁ last' m') :
  Direct .lowered inner (.tree (.bind [(limit, e)] (Expr.counted counter limit es))) env last m
    (.ok (.value .nil)) last' m'
  := by
  cases h with
  | lowered hes h =>
    obtain ⟨m₂, hturns, hlast⟩ := h
    have hreaches : (Expr.counted counter limit es).reaches Table.default.has = true :=
      Expr.reaches_counted_iff.2 hes
    have hzero : Direct .lowered inner (.bindings [(counter, .literal (.scalar (.int 0)))])
        ((limit, .int n) :: env) last₁ m₁ (.ok (.scope (env.counting counter limit n 0))) last₁
        m₁ :=
      .bindingsCons (.plain (r := .ok _) (not_needs_of_isAtom rfl) (Expr.ends_literal _) ⟨rfl, rfl⟩)
        .bindingsNil
    exact .bind (Expr.needs_of_child (List.mem_append_right _ (List.mem_singleton.2 rfl)) hreaches)
      (.bindingsCons he .bindingsNil)
      (.loop (Expr.needs_counted_iff.2 hes) hzero
        (iterate_counted hne hes hturns (Nat.zero_add _) hlast))
  | evaluated hes h hq =>
    obtain ⟨rfl, hends⟩ := Expr.ends_counted hne h
    have hplain : ¬ (Expr.counted counter limit es).Needs inner := by
      rw [Expr.needs_counted_iff]
      rintro ⟨e, he, hreaches⟩
      rw [hes e he] at hreaches
      cases hreaches
    by_cases hn : (Expr.bind [(limit, e)] (Expr.counted counter limit es)).Needs inner
    · exact .bind hn (.bindingsCons he .bindingsNil) (.plain (r := .ok _) hplain hends hq)
    · have hcount : ¬ e.Needs inner := fun h => hn (Expr.needs_binding h)
      obtain ⟨rfl, he, hquiet⟩ := he.evaluated hcount
      exact .plain (r := .ok _) hn (Expr.tailEnds_bind (.cons he .nil) hends)
        ⟨hq.levels.trans hquiet.levels, hq.pending.trans hquiet.pending⟩

/-! ### Compiling -/

namespace Compile

open Compiling

variable {o : Options} {p : Position} {t t' : SymbolTable} {ds : List Datum} {x : Symbol}

/-- What operands are compiled to does not mention a name that was minted for them before, unless
they do. -/
theorem operands_apart (ho : o.flavors.Discreet) (hx : Minted x)
    (hds : ∀ d ∈ ds, ¬ d.Mentions x) (ht : x ∈ t.names) (h : operands o p ds t = .ok es t') :
  ∀ e ∈ es, ¬ e.Mentions x
  := by
  induction ds generalizing t t' es with
  | nil =>
    rw [operands, pure_eq_ok_iff] at h
    obtain ⟨rfl, -⟩ := h
    exact fun _ h => absurd h List.not_mem_nil
  | cons d ds ih =>
    obtain ⟨hd, hds⟩ := List.forall_mem_cons.1 hds
    rw [operands] at h
    obtain ⟨e, t₁, he, h⟩ := bind_eq_ok_iff.1 h
    obtain ⟨es, t₂, hes, h⟩ := bind_eq_ok_iff.1 h
    obtain ⟨rfl, -⟩ := pure_eq_ok_iff.1 h
    obtain ⟨ht₁, he⟩ := form_apart ho hx p.operand hd ht he
    exact List.forall_mem_cons.2 ⟨he, ih hds ht₁ hes⟩

/-- A counted loop is compiled to a loop that counts up to a minted limit. -/
theorem form_countUp (counter : Symbol) (count : Datum) (ds : List Datum) :
  form o p (.list (.symbol "dotimes" :: .vector [.symbol counter, count] :: ds)) = do
    let limit ← fresh "limit"
    let e ← form o p.operand count
    let es ← operands o (.loopBody 1) ds
    Compiling.intern "inc"
    Compiling.intern "<"
    return .bind [(limit, e)] (.counted counter limit es)
  := by
  have hspecial : form o p (.list (.symbol "dotimes" :: .vector [.symbol counter, count] :: ds)) =
      special o p .countUp (.vector [.symbol counter, count] :: ds) := form_special .countUp _
  have hpairs : checkPairs "dotimes binding" [.symbol counter, count] = pure () := by
    simp [checkPairs, checkNames, symbolOf, Datum.symbol]
  rw [hspecial, special.eq_def]
  dsimp only
  rw [hpairs, pure_bind]
  rfl

/-- The parts that a counted loop is compiled to. -/
theorem parts_of_form_countUp {counter : Symbol} {count : Datum} {tree : Expr} (ho : o.flavors.Discreet)
    (hds : ∀ d ∈ ds, ∀ y, d.Mentions y → y ∈ t.names)
    (h : form o p (.list (.symbol "dotimes" :: .vector [.symbol counter, count] :: ds)) t =
      .ok tree t') :
  ∃ limit e es t₁ t₂ t₃, tree = .bind [(limit, e)] (.counted counter limit es) ∧
    t.Within t₁ ∧ form o p.operand count t₁ = .ok e t₂ ∧
    operands o (.loopBody 1) ds t₂ = .ok es t₃ ∧ limit ∉ t.names ∧ ∀ c ∈ es, ¬ c.Mentions limit
  := by
  rw [form_countUp] at h
  obtain ⟨limit, t₁, hlimit, h⟩ := bind_eq_ok_iff.1 h
  obtain ⟨e, t₂, he, h⟩ := bind_eq_ok_iff.1 h
  obtain ⟨es, t₃, hes, h⟩ := bind_eq_ok_iff.1 h
  obtain ⟨-, t₄, -, h⟩ := bind_eq_ok_iff.1 h
  obtain ⟨-, t₅, -, h⟩ := bind_eq_ok_iff.1 h
  obtain ⟨rfl, -⟩ := pure_eq_ok_iff.1 h
  obtain ⟨hnew, hknown, ht₁⟩ := fresh_spec hlimit
  have hminted : Minted limit := minted_of_fresh (by decide) hlimit
  refine ⟨limit, e, es, t₁, t₂, t₃, rfl, ht₁, he, hes, hnew, ?_⟩
  exact operands_apart ho hminted (fun d hd hy => hnew (hds d hd limit hy))
    (form_grows o p.operand count t₁ e t₂ he limit hknown) hes

end Compile

/-- A counted loop counts as long as each turn finds the functions that a program has from the start
by the names `<` and `inc`.  Then it evaluates its count once, and its body once for each number
that is less than the count, in their order, with the counter bound to the number and the count to
a new name that the body does not mention; its own value is empty.  So does the code that it becomes
in a coroutine, also when the count or the body suspends, and a coroutine that it is the body of
delivers that value. -/
theorem counted_loop_counts {o : Compile.Options} (ho : o.flavors.Discreet) {p : Compile.Position}
    {counter : Symbol} {count : Datum} {ds : List Datum} {t t' : SymbolTable} {tree : Expr}
    (hcounter : counter ∈ t.names) (hds : ∀ d ∈ ds, ∀ x, d.Mentions x → x ∈ t.names)
    (h : Compile.form o p (.list (.symbol "dotimes" :: .vector [.symbol counter, count] :: ds)) t =
      .ok tree t') :
  ∃ limit e es t₁ t₂ t₃, t.Within t₁ ∧ Compile.form o p.operand count t₁ = .ok e t₂ ∧
    Compile.operands o (.loopBody 1) ds t₂ = .ok es t₃ ∧
    limit ∉ t.names ∧ (∀ c ∈ es, ¬ c.Mentions limit) ∧
    (∀ env n m m₁ last last' m', e.Ends env m (.ok (.int n)) m₁ →
      CountsUp .evaluated (.evaluated es) env counter limit n last m₁ last' m' →
      tree.Ends env m (.ok .nil) m') ∧
    (∀ inner env n last m last₁ m₁ last' m',
      Direct .lowered inner (.tree e) env last m (.ok (.value (.int n))) last₁ m₁ →
      CountsUpInCoroutine es env counter limit n last₁ m₁ last' m' →
      Direct .lowered inner (.tree tree) env last m (.ok (.value .nil)) last' m') ∧
    ∀ {W params code u u'} env i id n m last₁ m₁ last' m', m.Sound W →
      tree.InBody u.User false → Env.Alike W u.User env env →
      Coroutine.compile Table.default tree u = .ok (.lambda none params code) u' →
      Direct .lowered false (.tree e) (env.answering i) none m.started (.ok (.value (.int n)))
        last₁ m₁ →
      CountsUpInCoroutine es (env.answering i) counter limit n last₁ m₁ last' m' →
      ∃ W' m₂, Delivered (m.heap.executions.size + 1) W' (.ok .nil) m' m₂ ∧ Eventually fun c f =>
        (Instrument.rehearse (Value.call c) f (.closure id none params code env)).Gives m (.ok ()) m₂
  := by
  obtain ⟨limit, e, es, t₁, t₂, t₃, rfl, ht₁, he, hes, hnew, hmentions⟩ :=
    Compile.parts_of_form_countUp ho hds h
  have hne : limit ≠ counter := by
    rintro rfl
    exact hnew hcounter
  refine ⟨limit, e, es, t₁, t₂, t₃, ht₁, he, hes, hnew, hmentions, ?_, ?_, ?_⟩
  · intro env n m m₁ last last' m' hcount hcounts
    exact Expr.tailEnds_bind (.cons hcount .nil) (Expr.ends_counted hne hcounts).2
  · intro inner env n last m last₁ m₁ last' m' hcount hcounts
    exact hcount.counted hne hcounts
  · intro W params code u u' env i id n m last₁ m₁ last' m' hm hbody henv hcompile hcount hcounts
    have hidle : m.started.Idle := ⟨⟨0, m.levels, rfl⟩, hm.pending⟩
    have hdirect := hcount.counted hne hcounts
    obtain ⟨W', m₂, hobserved, hends⟩ :=
      Direct.rehearsed (r := .ok _) hm hbody (fun _ hx => hx.1) (henv.answering i) hcompile hdirect id
    exact ⟨W', m₂, hobserved.delivered (Nat.succ_pos _) (hdirect.idle hidle).pending, hends⟩

/-! ### A loop that suspends in each turn -/

section awaiting

/-- The numbered names of the example. -/
def awaitingTwiceNames : SymbolTable := .insertAll .empty ["<", "inc", "await", "op", "i"]

/-- The body of the example awaits a call of the operation. -/
def awaitingTwiceBody : List Datum := [.list [.symbol "await", .symbol "op"]]

/-- A loop that awaits two calls, one after another. -/
def awaitingTwice : Expr :=
  .bind [("limit#1", .literal (.scalar (.int 2)))]
    (.counted "i" "limit#1" [.call (.var "await") [.var "op"]])

/-- The scope of the example. -/
def awaitingTwiceScope : Env :=
  [("op", .native (.instrument 2 .operation)), ("<", .less), ("inc", .increment)]

/-- The body of the loop is compiled to the awaited call. -/
theorem awaitingTwiceBody_compiles :
  Compile.operands ⟨.default, false⟩ (.loopBody 1) awaitingTwiceBody =
    pure [.call (.var "await") [.var "op"]]
  := by
  have hcall : Compile.SpecialForm.ofName? "await" = none := by decide
  rw [awaitingTwiceBody, Compile.operands, Compile.form_named hcall]
  simp [Compile.operands, Compile.form, Datum.symbol]

/-- The count of the loop is compiled to itself. -/
theorem awaitingTwiceCount_compiles (p : Compile.Position) :
  Compile.form ⟨.default, false⟩ p (.scalar (.int 2)) = pure (.literal (.scalar (.int 2)))
  := by
  rw [Compile.form.eq_def]

/-- The loop is compiled to its tree. -/
theorem awaitingTwice_compiles :
  ∃ t', Compile.form ⟨.default, false⟩ .top (.list (.symbol "dotimes" ::
      .vector [.symbol "i", .scalar (.int 2)] :: awaitingTwiceBody)) awaitingTwiceNames =
    .ok awaitingTwice t'
  := by
  have hfresh : fresh "limit" awaitingTwiceNames =
      .ok "limit#1" ⟨#["<", "inc", "await", "op", "i", "limit#1"], 1⟩ :=
    Compiling.fresh_eq_ok_iff.2 ⟨by decide +kernel, by decide +kernel⟩
  rw [Compile.form_countUp, awaitingTwiceCount_compiles, awaitingTwiceBody_compiles]
  exact ⟨_, Compiling.bind_eq_ok_iff.2 ⟨_, _, hfresh, rfl⟩⟩

/-- The loop counts to two in a coroutine. -/
theorem awaitingTwice_counts (hlimit : limit ∉ awaitingTwiceNames.names) (i : Nat) :
  ∃ last' m', CountsUpInCoroutine [.call (.var "await") [.var "op"]]
    (awaitingTwiceScope.answering i) "i" limit 2 none wakeful.started last' m'
  := by
  have hlookup : ∀ x v k m, x ∈ awaitingTwiceNames.names → x ≠ "i" →
      List.lookup x (awaitingTwiceScope.answering i) = some v →
      (Run.lookup ((awaitingTwiceScope.answering i).counting "i" limit 2 k) x).Gives m (.ok v) m := by
    intro x v k m hx hcounter h
    refine gives_lookup ((lookup_counting hcounter ?_).trans h)
    rintro rfl
    exact hlimit hx
  have hless := fun k m => hlookup "<" _ k m (by decide +kernel) (by decide) rfl
  have hnext := fun k m => hlookup "inc" _ k m (by decide +kernel) (by decide) rfl
  have hop : ∀ k last m, Direct .lowered true (.trees [.var "op"])
      ((awaitingTwiceScope.answering i).counting "i" limit 2 k) last m
      (.ok (.values [.native (.instrument 2 .operation)])) last m := fun k last m =>
    .treesCons (.plain (r := .ok _) (not_needs_of_isAtom rfl)
      (Expr.ends_of_lookup (hlookup "op" _ k m (by decide +kernel) (by decide) rfl)) ⟨rfl, rfl⟩)
      .treesNil
  have hbody : ∀ k last m m', (Instrument.answerWith [.native (.instrument 2 .operation)]).Gives m
      (.ok .nil) m' → BodyRun.lowered [.call (.var "await") [.var "op"]]
        ((awaitingTwiceScope.answering i).counting "i" limit 2 k) last m (some m.context) m' :=
    fun k last m m' hr => ⟨_, .treesCons (.await (r := .ok _) (by decide_cbv) (hop k last m) hr)
      .treesNil⟩
  obtain ⟨last', m', hturns⟩ : ∃ last' m', Turns .lowered
      (.lowered [.call (.var "await") [.var "op"]]) (awaitingTwiceScope.answering i) "i" limit 2 0 2
      none wakeful.started last' m' :=
    ⟨_, _, .next (hless 0 _) (hbody 0 _ _ _ rfl) (hnext 0 _) rfl
      (.next (hless 1 _) (hbody 1 _ _ _ rfl) (hnext 1 _) rfl .none)⟩
  exact ⟨last', m', .lowered ⟨_, List.mem_cons_self, by decide_cbv⟩ ⟨m', hturns, hless 2 m'⟩⟩

/-- The tree of the example can stand in a coroutine. -/
theorem awaitingTwice_inBody :
  awaitingTwice.InBody
    (SymbolTable.mk #["<", "inc", "await", "op", "i", "limit#1"] 1).User false
  := by
  have huser : ∀ x ∈ ["<", "inc", "op", "i", "limit#1"],
      (SymbolTable.mk #["<", "inc", "await", "op", "i", "limit#1"] 1).User x := by
    simp [SymbolTable.User]
  have hvar : ∀ x ∈ ["<", "inc", "op", "i", "limit#1"], (Expr.var x).InBody
      (SymbolTable.mk #["<", "inc", "await", "op", "i", "limit#1"] 1).User false :=
    fun x hx => .var (huser x hx)
  refine .bind (List.forall_mem_singleton.2 (huser _ (by decide)))
    (List.forall_mem_singleton.2 (.literal _))
    (.loop (List.forall_mem_singleton.2 (huser _ (by decide)))
      (List.forall_mem_singleton.2 (.literal _)) (.cond ?_ (.seq ?_ ?_) (.literal _)))
  · exact .call (hvar _ (by decide)) (List.forall_mem_cons.2
      ⟨hvar _ (by decide), List.forall_mem_singleton.2 (hvar _ (by decide))⟩)
  · exact List.forall_mem_singleton.2 (.await (List.forall_mem_singleton.2 (hvar _ (by decide))))
  · rintro _ ⟨⟩
    exact .recur (List.forall_mem_singleton.2 (.call (hvar _ (by decide))
      (List.forall_mem_singleton.2 (hvar _ (by decide)))))

/-- The coroutine of the example delivers the empty value. -/
theorem awaitingTwice_coroutine_counts :
  ∃ params code t' m₁, Coroutine.compile Table.default awaitingTwice
      ⟨#["<", "inc", "await", "op", "i", "limit#1"], 1⟩ = .ok (.lambda none params code) t' ∧
    ∃ W' m', Delivered 1 W' (.ok .nil) m₁ m' ∧ Eventually fun c f =>
      (Instrument.rehearse (Value.call c) f (.closure 3 none params code awaitingTwiceScope)).Gives
        wakeful (.ok ()) m'
  := by
  have hok : compiles awaitingTwice ⟨#["<", "inc", "await", "op", "i", "limit#1"], 1⟩ = true := by
    decide +kernel
  obtain ⟨params, code, t', hcompile⟩ := exists_compile hok
  have hnames : ∀ d ∈ awaitingTwiceBody, ∀ x, d.Mentions x → x ∈ awaitingTwiceNames.names := by
    intro d hd x hx
    obtain rfl := List.mem_singleton.1 hd
    obtain _ | @⟨_, d, hd, hx⟩ := hx
    rcases List.mem_cons.1 hd with rfl | hd
    · cases hx
      decide +kernel
    · obtain rfl := List.mem_singleton.1 hd
      cases hx
      decide +kernel
  have henv : ∀ S, Env.Alike (.upTo 3) S awaitingTwiceScope awaitingTwiceScope := by
    intro S
    refine Env.Alike.cons _ (.instrument _ ⟨rfl, by decide⟩) (.cons _ (.primitive _)
      (.cons _ (.primitive _) fun x _ => .none))
  obtain ⟨u, hform⟩ := awaitingTwice_compiles
  obtain ⟨limit, e, es, t₁, t₂, t₃, -, he, hes, hnew, -, -, -, hdelivers⟩ :=
    counted_loop_counts Coroutine.Flavors.discreet_default (by decide +kernel) hnames hform
  rw [awaitingTwiceCount_compiles, Compiling.pure_eq_ok_iff] at he
  rw [awaitingTwiceBody_compiles, Compiling.pure_eq_ok_iff] at hes
  obtain ⟨rfl, -⟩ := he
  obtain ⟨rfl, -⟩ := hes
  obtain ⟨last', m', hcounts⟩ := awaitingTwice_counts hnew 3
  have hcount : Direct .lowered false (.tree (.literal (.scalar (.int 2))))
      (awaitingTwiceScope.answering 3) none wakeful.started (.ok (.value (.int 2))) none
      wakeful.started :=
    .plain (r := .ok _) (not_needs_of_isAtom rfl) (Expr.ends_literal _) ⟨rfl, rfl⟩
  exact ⟨params, code, t', m', hcompile, hdelivers _ 3 3 2 wakeful _ _ _ _ wakeful_sound
    awaitingTwice_inBody (henv _) hcompile hcount hcounts⟩

end awaiting

end Skein
