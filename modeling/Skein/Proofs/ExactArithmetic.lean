import Skein.Proofs.Faults
import Mathlib.Algebra.BigOperators.Group.List.Basic
import Mathlib.Algebra.Ring.Int.Defs

/-!
# Exact arithmetic

A function on numbers that is given integers computes with them exactly, from left to right.  When
a partial sum, product or difference does not fit in 64 bits, the function raises a condition.

A quotient is exact when the divisors divide it, and fits in 64 bits unless the least integer is
divided by minus one.  That division stops the program with a fault, the only one that functions
on numbers come to, and it is an overflow for the remainder, although that would be zero.
-/

namespace Skein

open Run

variable {α β : Type} {m m' : Machine} {message : String}

/-! ### Integers of 64 bits -/

namespace Number

/-- Which integers fit in 64 bits. -/
theorem fitsWord_iff {n : Int} :
  fitsWord n = true ↔ -2 ^ 63 ≤ n ∧ n < 2 ^ 63
  := by
  rw [fitsWord, Bool.and_eq_true, decide_eq_true_iff, decide_eq_true_iff, Int64.toInt_minValue,
    Int64.toInt_maxValue, Int.le_sub_one_iff]

/-- A word fits. -/
theorem fitsWord_toInt (w : Int64) :
  fitsWord w.toInt = true
  := fitsWord_iff.2 ⟨w.le_toInt, w.toInt_lt⟩

/-- An integer that fits is a word. -/
theorem exists_word?_eq {n : Int} (h : fitsWord n = true) :
  ∃ w : Int64, w.toInt = n ∧ word? n = some w
  := by
  obtain ⟨hle, hlt⟩ := fitsWord_iff.1 h
  exact ⟨.ofInt n, Int64.toInt_ofInt_of_le hle hlt, if_pos h⟩

/-- An integer that does not fit is no word. -/
theorem word?_eq_none {n : Int} (h : fitsWord n = false) :
  word? n = none
  := if_neg (Bool.eq_false_iff.1 h)

end Number

/-! ### Computations that do not come to a fault -/

namespace Run

/-- A condition is raised instead of what follows. -/
theorem raise_bind (kind : ConditionKind) (message : String) (k : α → Run β) :
  (raise kind message : Run α) >>= k = raise kind message
  := rfl

/-- When a computation with a continuation stops with a fault. -/
theorem faults_bind_iff {act : Run α} {k : α → Run β} :
  (act >>= k).Faults m message m' ↔ act.Faults m message m' ∨
    ∃ a m₁, act.Gives m (.ok a) m₁ ∧ (k a).Faults m₁ message m'
  := by
  constructor
  · intro h
    unfold Faults at h
    rw [bind_apply] at h
    cases ha : act m with
    | ok a m₁ =>
      rw [ha] at h
      exact .inr ⟨a, m₁, ha, h⟩
    | error stop m₁ =>
      rw [ha] at h
      cases h
      exact .inl ha
  · rintro (h | ⟨a, m₁, ha, hk⟩)
    · exact h.bind
    · exact ha.bind_faults hk

/-- A computation comes to no fault. -/
def Sturdy (act : Run α) : Prop := ∀ m message m', ¬act.Faults m message m'

/-- A value is no fault. -/
theorem Sturdy.pure (a : α) :
  Sturdy (Pure.pure a : Run α)
  := fun _ _ _ h => by cases h

/-- A condition is no fault. -/
theorem Sturdy.raise (kind : ConditionKind) (message : String) :
  Sturdy (Run.raise kind message : Run α)
  := fun _ _ _ h => by cases h

/-- One computation after another comes to no fault. -/
theorem Sturdy.bind {act : Run α} {k : α → Run β} (h : act.Sturdy) (hk : ∀ a, (k a).Sturdy) :
  (act >>= k).Sturdy
  := by
  intro m message m' hfaults
  rcases faults_bind_iff.1 hfaults with hact | ⟨a, m₁, -, hfaults⟩
  · exact h _ _ _ hact
  · exact hk a _ _ _ hfaults

/-- A computation on integers is exact: it gives its result when all of its partial results fit in
64 bits, and raises a condition when one of them does not. -/
structure Exact (act : Run Value) (name : String) (partials : List Int) (result : Int) : Prop where
  value : (∀ p ∈ partials, Number.fitsWord p = true) →
    ∃ w : Int64, w.toInt = result ∧ act = Pure.pure (.int w)
  overflow : (∃ p ∈ partials, Number.fitsWord p = false) →
    act = Run.raise .error (name ++ ": integer overflow")

end Run

/-! ### Sums, products and differences -/

namespace ArithmeticOp

variable {name : String} {f : Int → Int → Int} {g : Float → Float → Float}

/-- The number of an integer. -/
theorem argument_int (name : String) (w : Int64) :
  argument name (.int w) = pure (.int w)
  := rfl

/-- The first partial result is one. -/
theorem mem_scanl_self (f : Int → Int → Int) (n : Int) (ns : List Int) :
  n ∈ ns.scanl f n
  := by
  cases ns with
  | nil => exact List.mem_singleton_self n
  | cons k ks =>
    rw [List.scanl_cons]
    exact List.mem_cons_self

/-- Combining integers, the first partial result of which fits. -/
theorem accumulate_cons {a k w : Int64} (hword : Number.word? (f a.toInt k.toInt) = some w)
    (vs : List Value) :
  accumulate name f g (.int a) (.int k :: vs) = accumulate name f g (.int w) vs
  := by
  rw [accumulate, argument_int, pure_bind, combine, exact, hword, pure_bind]

/-- Integers whose partial results all fit are combined to the last of these. -/
theorem accumulate_eq_pure (name : String) (g : Float → Float → Float) (a : Int64)
    (ns : List Int64)
    (h : ∀ p ∈ (ns.map Int64.toInt).scanl f a.toInt, Number.fitsWord p = true) :
  ∃ w : Int64, w.toInt = (ns.map Int64.toInt).foldl f a.toInt ∧
    accumulate name f g (.int a) (ns.map .int) = pure (.int w)
  := by
  induction ns generalizing a with
  | nil => exact ⟨a, rfl, rfl⟩
  | cons k ns ih =>
    rw [List.map_cons, List.scanl_cons] at h
    have hrest := (List.forall_mem_cons.1 h).2
    obtain ⟨w, hw, hword⟩ := Number.exists_word?_eq (hrest _ (mem_scanl_self f _ _))
    rw [← hw] at hrest
    obtain ⟨r, hr, heq⟩ := ih w hrest
    refine ⟨r, ?_, ?_⟩
    · rw [hr, hw, List.map_cons, List.foldl_cons]
    · rw [List.map_cons, accumulate_cons hword, heq]

/-- Integers with a partial result that does not fit raise a condition. -/
theorem accumulate_eq_raise (a : Int64) (ns : List Int64)
    (h : ∃ p ∈ (ns.map Int64.toInt).scanl f a.toInt, Number.fitsWord p = false) :
  accumulate name f g (.int a) (ns.map .int) =
    Run.raise .error (name ++ ": integer overflow")
  := by
  induction ns generalizing a with
  | nil =>
    obtain ⟨p, hp, hfits⟩ := h
    obtain rfl := List.mem_singleton.1 hp
    exact absurd (Number.fitsWord_toInt a) (Bool.eq_false_iff.1 hfits)
  | cons k ns ih =>
    obtain ⟨p, hp, hfits⟩ := h
    rw [List.map_cons, List.scanl_cons] at hp
    rcases List.mem_cons.1 hp with rfl | hp
    · exact absurd (Number.fitsWord_toInt a) (Bool.eq_false_iff.1 hfits)
    cases hnext : Number.fitsWord (f a.toInt k.toInt) with
    | true =>
      obtain ⟨w, hw, hword⟩ := Number.exists_word?_eq hnext
      rw [List.map_cons, accumulate_cons hword]
      exact ih w ⟨p, hw ▸ hp, hfits⟩
    | false =>
      rw [List.map_cons, accumulate, argument_int, pure_bind, combine, exact,
        Number.word?_eq_none hnext]
      exact Run.raise_bind _ _ _

/-- Integers are combined exactly. -/
theorem accumulate_exact (name : String) (f : Int → Int → Int) (g : Float → Float → Float)
    (a : Int64) (ns : List Int64) :
  (do return (← accumulate name f g (.int a) (ns.map .int)).toValue : Run Value).Exact name
    ((ns.map Int64.toInt).scanl f a.toInt) ((ns.map Int64.toInt).foldl f a.toInt)
  where
  value h := by
    obtain ⟨w, hw, heq⟩ := accumulate_eq_pure name g a ns h
    refine ⟨w, hw, ?_⟩
    rw [heq, pure_bind]
    rfl
  overflow h := by
    rw [accumulate_eq_raise a ns h]
    exact Run.raise_bind _ _ _

/-! ### Quotients -/

/-- Ones, and then minus one. -/
inductive ByMinusOne : List Value → Prop where
  | last (rest : List Value) : ByMinusOne (.int (-1) :: rest)
  | one {vs : List Value} (h : ByMinusOne vs) : ByMinusOne (.int 1 :: vs)

/-- What division says when it divides the least integer by minus one. -/
def remainderOverflow : String := "attempt to calculate the remainder with overflow"

/-- A quotient fits, unless the least integer is divided by minus one. -/
theorem fitsWord_tdiv {a b : Int64} (h : ¬(a = Int64.minValue ∧ b = -1)) :
  Number.fitsWord (a.toInt.tdiv b.toInt) = true
  := by
  have hle := a.le_toInt
  have hlt := a.toInt_lt
  rw [Number.fitsWord_iff]
  by_cases hone : b.toInt = 1
  · rw [hone, Int.tdiv_one]
    exact ⟨hle, hlt⟩
  by_cases hminus : b.toInt = -1
  · have ha : a.toInt ≠ -2 ^ 63 := fun ha =>
      h ⟨Int64.toInt_inj.1 ha, Int64.toInt_inj.1 hminus⟩
    rw [hminus, Int.tdiv_neg, Int.tdiv_one]
    omega
  · -- The other divisors halve the dividend at least, or are zero.
    have habs : (a.toInt.tdiv b.toInt).natAbs = a.toInt.natAbs / b.toInt.natAbs :=
      Int.natAbs_tdiv _ _
    have hhalf : a.toInt.natAbs / b.toInt.natAbs ≤ a.toInt.natAbs / 2 := by
      by_cases hzero : b.toInt = 0
      · rw [hzero, Int.natAbs_zero, Nat.div_zero]
        exact Nat.zero_le _
      · exact Nat.div_le_div_left (by omega) (by omega)
    omega

/-- The quotient of integers of which the second one divides the first one. -/
theorem quotient_of_dvd {a b : Int64} (h : ¬(a = Int64.minValue ∧ b = -1))
    (hdvd : b.toInt ∣ a.toInt) :
  ∃ q : Int64, q.toInt * b.toInt = a.toInt ∧ quotient (.int a) (.int b) = pure (.int q)
  := by
  obtain ⟨q, hq, hword⟩ := Number.exists_word?_eq (fitsWord_tdiv h)
  refine ⟨q, ?_, ?_⟩
  · rw [hq, Int.tdiv_mul_cancel hdvd]
  · rw [quotient, if_neg, if_pos (Int.tmod_eq_zero_of_dvd hdvd), exact, hword]
    rwa [Bool.and_eq_true, decide_eq_true_iff, decide_eq_true_iff]

/-- The quotient of integers of which the second one does not divide the first one. -/
theorem quotient_of_not_dvd {a b : Int64} (hdvd : ¬b.toInt ∣ a.toInt) :
  quotient (.int a) (.int b) = pure (.float (a.toFloat / b.toFloat))
  := by
  rw [quotient, if_neg, if_neg (fun h => hdvd (Int.dvd_of_tmod_eq_zero h))]
  rw [Bool.and_eq_true, decide_eq_true_iff, decide_eq_true_iff]
  rintro ⟨-, rfl⟩
  exact hdvd ⟨-a.toInt, (Int.neg_neg a.toInt).symm.trans (Int.neg_one_mul _).symm⟩

/-- The next quotient is about to overflow when this one is. -/
theorem least_quotient_iff {a d q : Int64} (hd : d ≠ 0) (h : ¬(a = Int64.minValue ∧ d = -1))
    (hq : q.toInt * d.toInt = a.toInt) (vs : List Value) :
  q = Int64.minValue ∧ ByMinusOne vs ↔ a = Int64.minValue ∧ ByMinusOne (.int d :: vs)
  := by
  constructor
  · rintro ⟨rfl, hvs⟩
    have hd' : d.toInt ≠ 0 := fun hzero => hd (Int64.toInt_inj.1 hzero)
    have hle := a.le_toInt
    have hlt := a.toInt_lt
    rw [Int64.toInt_minValue] at hq
    obtain rfl : d = 1 := Int64.toInt_inj.1 (by rw [Int64.toInt_one]; omega)
    exact ⟨Int64.toInt_inj.1 (by rw [Int64.toInt_minValue, ← hq]; rfl), .one hvs⟩
  · rintro ⟨rfl, hvs⟩
    cases hvs with
    | last rest => exact absurd ⟨rfl, rfl⟩ h
    | one hvs =>
      rw [Int64.toInt_one, Int.mul_one] at hq
      exact ⟨Int64.toInt_inj.1 hq, hvs⟩

/-- Dividing by an integer that is not zero. -/
theorem divideAll_cons (acc : Numeric) {d : Int64} (hd : d ≠ 0) (vs : List Value) :
  divideAll acc (.int d :: vs) = (do divideAll (← quotient acc (.int d)) vs)
  := by
  rw [divideAll, argument_int, pure_bind, Numeric.isZero, if_neg]
  rwa [decide_eq_true_iff]

/-- Dividing by zero. -/
theorem divideAll_cons_zero (acc : Numeric) (vs : List Value) :
  divideAll acc (.int 0 :: vs) = Run.raise .divisionByZero "/: division by zero"
  := rfl

/-- Dividing the least integer by minus one. -/
theorem divideAll_least (vs : List Value) :
  divideAll (.int Int64.minValue) (.int (-1) :: vs) = throw (.fault remainderOverflow)
  := rfl

/-- Reading an argument as a number comes to no fault. -/
theorem argument_sturdy (name : String) (v : Value) :
  (argument name v).Sturdy
  := by
  unfold argument
  split
  · exact .pure _
  · exact .raise _ _

/-- Reading an argument as an integer comes to no fault. -/
theorem intArgument_sturdy (name : String) (v : Value) :
  (intArgument name v).Sturdy
  := by
  unfold intArgument
  split
  · exact .pure _
  · exact .raise _ _

/-- An exact result comes to no fault. -/
theorem exact_sturdy (name : String) (n : Int) :
  (exact name n).Sturdy
  := by
  unfold exact
  split
  · exact .pure _
  · exact .raise _ _

/-- Combining two numbers comes to no fault. -/
theorem combine_sturdy (name : String) (f : Int → Int → Int) (g : Float → Float → Float)
    (a b : Numeric) :
  (combine name f g a b).Sturdy
  := by
  unfold combine
  split
  · exact exact_sturdy name _
  · exact .pure _

/-- The remainder of two integers comes to no fault. -/
theorem remainder_sturdy (a b : Int64) :
  (remainder a b).Sturdy
  := by
  unfold remainder
  split
  · exact .raise _ _
  · split
    · exact .raise _ _
    · exact exact_sturdy "mod" _

/-- An argument that is read as an integer is that integer. -/
theorem argument_gives {name : String} {v : Value} {n : Int64}
    (h : (argument name v).Gives m (.ok (.int n)) m') :
  v = .int n ∧ m' = m
  := by
  unfold argument Numeric.ofValue? at h
  split at h
  · rename_i k hk
    split at hk <;> cases hk <;> cases h
    exact ⟨rfl, rfl⟩
  · cases h

/-- Dividing a float comes to no fault. -/
theorem divideAll_float_sturdy (x : Float) (vs : List Value) :
  (divideAll (.float x) vs).Sturdy
  := by
  induction vs generalizing x with
  | nil => exact .pure _
  | cons v vs ih =>
    apply (argument_sturdy "/" v).bind
    intro n
    split
    · exact .raise _ _
    · cases n <;> exact ih _

/-- Dividing by something that is no integer, or by zero, comes to no fault at once. -/
theorem divideAll_cons_sturdy (acc : Numeric) {v : Value} (vs : List Value)
    (hv : ∀ d : Int64, d ≠ 0 → v ≠ .int d) :
  (divideAll acc (v :: vs)).Sturdy
  := by
  unfold divideAll argument Numeric.ofValue?
  split
  · rename_i n hn
    rw [pure_bind]
    split
    · exact .raise _ _
    · rename_i hzero
      split at hn <;> cases hn
      · rename_i d
        exact absurd rfl (hv d fun h => hzero (decide_eq_true_iff.2 h))
      · cases acc <;> exact divideAll_float_sturdy _ vs
  · exact .raise _ _

/-- A division stops with a fault exactly when it comes to the least integer divided by minus
one. -/
theorem divideAll_faults_iff {acc : Numeric} {vs : List Value} :
  (divideAll acc vs).Faults m message m' ↔
    acc = .int Int64.minValue ∧ ByMinusOne vs ∧ message = remainderOverflow ∧ m' = m
  := by
  induction vs generalizing acc with
  | nil =>
    refine iff_of_false (Sturdy.pure _ _ _ _) ?_
    rintro ⟨-, ⟨⟩, -⟩
  | cons v vs ih =>
    by_cases hv : ∃ d : Int64, d ≠ 0 ∧ v = .int d
    · obtain ⟨d, hd, rfl⟩ := hv
      cases acc with
      | float x =>
        refine iff_of_false (divideAll_float_sturdy x _ _ _ _) ?_
        rintro ⟨⟨⟩, -⟩
      | int a =>
        by_cases hleast : a = Int64.minValue ∧ d = -1
        · obtain ⟨rfl, rfl⟩ := hleast
          rw [divideAll_least]
          constructor
          · rintro ⟨⟩
            exact ⟨rfl, .last vs, rfl, rfl⟩
          · rintro ⟨-, -, rfl, rfl⟩
            rfl
        rw [divideAll_cons _ hd]
        by_cases hdvd : d.toInt ∣ a.toInt
        · obtain ⟨q, hq, hquotient⟩ := quotient_of_dvd hleast hdvd
          have hstep := least_quotient_iff hd hleast hq vs
          rw [hquotient, pure_bind, ih, Numeric.int.injEq, Numeric.int.injEq, ← and_assoc, hstep,
            and_assoc]
        · rw [quotient_of_not_dvd hdvd, pure_bind]
          refine iff_of_false (divideAll_float_sturdy _ _ _ _ _) ?_
          rintro ⟨⟨⟩, hvs, -⟩
          apply hdvd
          cases hvs with
          | last rest => exact ⟨-Int64.minValue.toInt, rfl⟩
          | one hvs => exact one_dvd _
    · refine iff_of_false (divideAll_cons_sturdy acc vs (fun d hd h => hv ⟨d, hd, h⟩) _ _ _) ?_
      rintro ⟨-, hvs, -⟩
      apply hv
      cases hvs with
      | last rest => exact ⟨-1, by decide, rfl⟩
      | one hvs => exact ⟨1, by decide, rfl⟩

/-- The first divisor divides a number that the product of the divisors divides. -/
theorem dvd_of_prod_cons_dvd {a d : Int64} {ds : List Int64}
    (h : ((d :: ds).map Int64.toInt).prod ∣ a.toInt) :
  d.toInt ∣ a.toInt
  := by
  rw [List.map_cons, List.prod_cons] at h
  exact dvd_of_mul_right_dvd h

/-- The product of the other divisors divides the first quotient. -/
theorem prod_dvd_of_prod_cons_dvd {a d q : Int64} {ds : List Int64} (hd : d ≠ 0)
    (hq : q.toInt * d.toInt = a.toInt) (h : ((d :: ds).map Int64.toInt).prod ∣ a.toInt) :
  (ds.map Int64.toInt).prod ∣ q.toInt
  := by
  rw [List.map_cons, List.prod_cons, ← hq, mul_comm q.toInt] at h
  exact Int.dvd_of_mul_dvd_mul_left (fun hzero => hd (Int64.toInt_inj.1 hzero)) h

/-- The quotient by divisors that divide a number exactly. -/
theorem divideAll_of_dvd {a : Int64} {ds : List Int64} (hzero : ∀ d ∈ ds, d ≠ 0)
    (hdvd : (ds.map Int64.toInt).prod ∣ a.toInt)
    (hleast : ¬(a = Int64.minValue ∧ ByMinusOne (ds.map .int))) :
  ∃ q : Int64, q.toInt * (ds.map Int64.toInt).prod = a.toInt ∧
    divideAll (.int a) (ds.map .int) = pure (.int q)
  := by
  induction ds generalizing a with
  | nil => exact ⟨a, Int.mul_one _, rfl⟩
  | cons d ds ih =>
    obtain ⟨hd, hds⟩ := List.forall_mem_cons.1 hzero
    have hfirst : ¬(a = Int64.minValue ∧ d = -1) := by
      rintro ⟨rfl, rfl⟩
      exact hleast ⟨rfl, .last _⟩
    obtain ⟨q, hq, hquotient⟩ := quotient_of_dvd hfirst (dvd_of_prod_cons_dvd hdvd)
    have hstep := least_quotient_iff hd hfirst hq (ds.map .int)
    obtain ⟨r, hr, hrest⟩ := ih hds (prod_dvd_of_prod_cons_dvd hd hq hdvd)
      fun h => hleast (hstep.1 h)
    refine ⟨r, ?_, ?_⟩
    · rw [List.map_cons, List.prod_cons, Int.mul_left_comm, hr, Int.mul_comm, hq]
    · rw [List.map_cons, divideAll_cons _ hd, hquotient, pure_bind, hrest]

/-- All quotients fit, unless the least integer is divided by ones and then by minus one. -/
theorem quotients_fit_iff {a : Int64} {ds : List Int64} (hzero : ∀ d ∈ ds, d ≠ 0)
    (hdvd : (ds.map Int64.toInt).prod ∣ a.toInt) :
  (∀ q ∈ (ds.map Int64.toInt).scanl (· / ·) a.toInt, Number.fitsWord q = true) ↔
    ¬(a = Int64.minValue ∧ ByMinusOne (ds.map .int))
  := by
  induction ds generalizing a with
  | nil =>
    refine iff_of_true (List.forall_mem_singleton.2 (Number.fitsWord_toInt a)) ?_
    rintro ⟨-, ⟨⟩⟩
  | cons d ds ih =>
    obtain ⟨hd, hds⟩ := List.forall_mem_cons.1 hzero
    rw [List.map_cons, List.scanl_cons, List.forall_mem_cons,
      and_iff_right (Number.fitsWord_toInt a), List.map_cons]
    by_cases hfirst : a = Int64.minValue ∧ d = -1
    · obtain ⟨rfl, rfl⟩ := hfirst
      refine iff_of_false (fun h => ?_) (not_not.2 ⟨rfl, .last _⟩)
      exact absurd (h _ (mem_scanl_self _ _ _)) (by decide)
    · obtain ⟨q, hq, -⟩ := quotient_of_dvd hfirst (dvd_of_prod_cons_dvd hdvd)
      have hd' : d.toInt ≠ 0 := fun h => hd (Int64.toInt_inj.1 h)
      rw [← least_quotient_iff hd hfirst hq, ← hq, Int.mul_ediv_cancel _ hd']
      exact ih hds (prod_dvd_of_prod_cons_dvd hd hq hdvd)

/-- The first divisor that is zero raises a condition, whether or not the quotients before it are
exact. -/
theorem divideAll_zero {acc : Numeric} {ds : List Int64} (hzero : ∀ d ∈ ds, d ≠ 0)
    (hleast : ¬(acc = .int Int64.minValue ∧ ByMinusOne (ds.map .int))) (vs : List Value) :
  divideAll acc (ds.map .int ++ .int 0 :: vs) =
    Run.raise .divisionByZero "/: division by zero"
  := by
  induction ds generalizing acc with
  | nil => exact divideAll_cons_zero acc vs
  | cons d ds ih =>
    obtain ⟨hd, hds⟩ := List.forall_mem_cons.1 hzero
    rw [List.map_cons, List.cons_append, divideAll_cons _ hd]
    have hfloat : ∀ x, divideAll (.float x) (ds.map .int ++ .int 0 :: vs) =
        Run.raise .divisionByZero "/: division by zero" := by
      intro x
      apply ih hds
      rintro ⟨⟨⟩, -⟩
    cases acc with
    | float x => exact hfloat _
    | int a =>
      have hfirst : ¬(a = Int64.minValue ∧ d = -1) := by
        rintro ⟨rfl, rfl⟩
        exact hleast ⟨rfl, .last _⟩
      by_cases hdvd : d.toInt ∣ a.toInt
      · obtain ⟨q, hq, hquotient⟩ := quotient_of_dvd hfirst hdvd
        have hstep := least_quotient_iff hd hfirst hq (ds.map .int)
        rw [hquotient, pure_bind]
        apply ih hds
        rintro ⟨hleast', hvs⟩
        obtain ⟨rfl, hvs⟩ := hstep.1 ⟨Numeric.int.inj hleast', hvs⟩
        exact hleast ⟨rfl, hvs⟩
      · rw [quotient_of_not_dvd hdvd, pure_bind]
        exact hfloat _

/-! ### Remainders -/

/-- The remainder that has the sign of the divisor. -/
def floored (a b : Int) : Int :=
  if a.tmod b ≠ 0 && (decide (a.tmod b < 0) != decide (b < 0)) then a.tmod b + b else a.tmod b

/-- When the remainder of a truncated division is corrected. -/
theorem floored_of_signs {a b : Int} (h : a.tmod b ≠ 0 ∧ ¬(a.tmod b < 0 ↔ b < 0)) :
  floored a b = a.tmod b + b
  := by
  rw [floored, if_pos]
  simpa using h

/-- When the remainder of a truncated division is kept. -/
theorem floored_of_not_signs {a b : Int} (h : ¬(a.tmod b ≠ 0 ∧ ¬(a.tmod b < 0 ↔ b < 0))) :
  floored a b = a.tmod b
  := by
  rw [floored, if_neg]
  simpa using h

/-- The remainder is smaller than the divisor, and it is zero or has its sign. -/
theorem floored_bounds (a : Int) {b : Int} (hb : b ≠ 0) :
  (floored a b).natAbs < b.natAbs ∧ (floored a b = 0 ∨ (floored a b < 0 ↔ b < 0))
  := by
  have hlt : (a.tmod b).natAbs < b.natAbs := by
    rw [Int.natAbs_tmod]
    exact Nat.mod_lt _ (Int.natAbs_pos.2 hb)
  by_cases h : a.tmod b ≠ 0 ∧ ¬(a.tmod b < 0 ↔ b < 0)
  · rw [floored_of_signs h]
    omega
  · rw [floored_of_not_signs h]
    omega

/-- The divisor divides what the remainder leaves. -/
theorem dvd_sub_floored (a b : Int) :
  b ∣ a - floored a b
  := by
  have hdvd : b ∣ a - a.tmod b := by
    have hdivision := Int.mul_tdiv_add_tmod a b
    exact ⟨a.tdiv b, by omega⟩
  by_cases h : a.tmod b ≠ 0 ∧ ¬(a.tmod b < 0 ↔ b < 0)
  · rw [floored_of_signs h, ← Int.sub_sub]
    exact Int.dvd_sub hdvd (dvd_refl b)
  · rw [floored_of_not_signs h]
    exact hdvd

/-- The remainder is zero exactly when the divisor divides the number. -/
theorem floored_eq_zero_iff (a : Int) {b : Int} (hb : b ≠ 0) :
  floored a b = 0 ↔ b ∣ a
  := by
  constructor
  · intro h
    have hdvd := dvd_sub_floored a b
    rwa [h, Int.sub_zero] at hdvd
  · intro h
    have hdvd : b ∣ floored a b := (Int.dvd_iff_dvd_of_dvd_sub (dvd_sub_floored a b)).1 h
    exact Int.eq_zero_of_dvd_of_natAbs_lt_natAbs hdvd (floored_bounds a hb).1

/-- The remainder of words is a word. -/
theorem remainder_eq {a b : Int64} (hb : b ≠ 0) (h : ¬(a = Int64.minValue ∧ b = -1)) :
  ∃ r : Int64, r.toInt = floored a.toInt b.toInt ∧ remainder a b = pure (.int r)
  := by
  have hb' : b.toInt ≠ 0 := fun hzero => hb (Int64.toInt_inj.1 hzero)
  have hle := b.le_toInt
  have hlt := b.toInt_lt
  have hbounds := floored_bounds a.toInt hb'
  have hfits : Number.fitsWord (floored a.toInt b.toInt) = true := Number.fitsWord_iff.2 (by omega)
  obtain ⟨r, hr, hword⟩ := Number.exists_word?_eq hfits
  refine ⟨r, hr, ?_⟩
  have hexact : exact "mod" (floored a.toInt b.toInt) = pure (.int r) := by rw [exact, hword]
  rw [remainder, if_neg hb, if_neg]
  · exact hexact
  · rwa [Bool.and_eq_true, decide_eq_true_iff, decide_eq_true_iff]

/-! ### Functions on integers -/

/-- The function that a program has for an operation on numbers. -/
def function (op : ArithmeticOp) : Value := .native (.primitive (.arithmetic op))

/-- Calling a function on numbers with as many arguments as it takes. -/
theorem call_function (op : ArithmeticOp) (fuel : Nat) {vs : List Value}
    (h : op.signature.2.accepts vs.length = true) :
  Value.call (fuel + 1) op.function vs = op.apply vs
  := by
  change (do Run.checkArity op.signature.2 op.signature.1 vs; op.apply vs) = op.apply vs
  rw [Run.checkArity, if_pos h, pure_bind]

/-- Combining numbers comes to no fault. -/
theorem accumulate_sturdy (name : String) (f : Int → Int → Int) (g : Float → Float → Float)
    (acc : Numeric) (vs : List Value) :
  (accumulate name f g acc vs).Sturdy
  := by
  induction vs generalizing acc with
  | nil => exact .pure _
  | cons v vs ih =>
    apply (argument_sturdy name v).bind
    intro n
    exact (combine_sturdy name f g acc n).bind fun next => ih next

/-- The functions on numbers other than division come to no fault. -/
theorem compute_sturdy {op : ArithmeticOp} (hop : op ≠ .divide) (vs : List Value) :
  (compute op vs).Sturdy
  := by
  unfold compute
  split
  · exact accumulate_sturdy _ _ _ _ _
  · exact accumulate_sturdy _ _ _ _ _
  · exact accumulate_sturdy _ _ _ _ _
  · exact (argument_sturdy "-" _).bind fun n => accumulate_sturdy _ _ _ _ _
  · exact absurd rfl hop
  · exact absurd rfl hop
  · apply (intArgument_sturdy "mod" _).bind
    intro a
    apply (intArgument_sturdy "mod" _).bind
    intro b
    exact remainder_sturdy a b
  · exact accumulate_sturdy _ _ _ _ _
  · exact (argument_sturdy "dec" _).bind fun n => combine_sturdy _ _ _ _ _
  · exact .pure _

/-- When a division comes to a fault. -/
theorem compute_divide_faults_iff {vs : List Value} :
  (compute .divide vs).Faults m message m' ↔
    (∃ ds, vs = .int Int64.minValue :: ds ∧ ByMinusOne ds) ∧ message = remainderOverflow ∧ m' = m
  := by
  match vs with
  | [] =>
    refine iff_of_false (Sturdy.pure _ _ _ _) ?_
    rintro ⟨⟨_, ⟨⟩, -⟩, -⟩
  | [v] =>
    refine iff_of_false ?_ ?_
    · intro h
      rcases faults_bind_iff.1 h with h | ⟨n, m₁, -, h⟩
      · exact argument_sturdy "/" v _ _ _ h
      · cases (divideAll_faults_iff.1 h).1
    · rintro ⟨⟨_, ⟨⟩, ⟨⟩⟩, -⟩
  | v :: w :: ws =>
    constructor
    · intro h
      rcases faults_bind_iff.1 h with h | ⟨n, m₁, hn, h⟩
      · exact absurd h (argument_sturdy "/" v _ _ _)
      · obtain ⟨rfl, hws, rfl, rfl⟩ := divideAll_faults_iff.1 h
        obtain ⟨rfl, rfl⟩ := argument_gives hn
        exact ⟨⟨_, rfl, hws⟩, rfl, rfl⟩
    · rintro ⟨⟨_, ⟨⟩, hws⟩, rfl, rfl⟩
      exact divideAll_faults_iff.2 ⟨rfl, hws, rfl, rfl⟩

/-- Functions on numbers come to a fault in one case only: when the least integer is divided by
ones and then by minus one. -/
theorem function_faults_iff (op : ArithmeticOp) (fuel : Nat) {vs : List Value} :
  (Value.call (fuel + 1) op.function vs).Faults m message m' ↔
    op = .divide ∧ (∃ ds, vs = .int Int64.minValue :: ds ∧ ByMinusOne ds) ∧
      message = remainderOverflow ∧ m' = m
  := by
  cases haccepts : op.signature.2.accepts vs.length with
  | false =>
    refine iff_of_false ?_ ?_
    · change ¬(do Run.checkArity op.signature.2 op.signature.1 vs; op.apply vs).Faults m message m'
      rw [Run.checkArity, if_neg (Bool.eq_false_iff.1 haccepts)]
      exact Sturdy.raise _ _ _ _ _
    · rintro ⟨rfl, ⟨ds, rfl, -⟩, -⟩
      cases haccepts
  | true =>
    rw [call_function op fuel haccepts]
    have happly : (op.apply vs).Faults m message m' ↔ (compute op vs).Faults m message m' := by
      refine faults_bind_iff.trans (or_iff_left ?_)
      rintro ⟨n, m₁, -, h⟩
      exact Sturdy.pure _ _ _ _ h
    rw [happly]
    by_cases hop : op = .divide
    · obtain rfl := hop
      rw [compute_divide_faults_iff, and_iff_right rfl]
    · exact iff_of_false (compute_sturdy hop vs _ _ _) fun h => hop h.1

/-- A sum is exact. -/
theorem add_exact (fuel : Nat) (ns : List Int64) :
  (Value.call (fuel + 1) add.function (ns.map .int)).Exact "+"
    ((ns.map Int64.toInt).scanl (· + ·) 0) (ns.map Int64.toInt).sum
  := by
  rw [call_function add fuel rfl, List.sum_eq_foldl]
  exact accumulate_exact "+" (· + ·) (· + ·) 0 ns

/-- A product is exact. -/
theorem multiply_exact (fuel : Nat) (ns : List Int64) :
  (Value.call (fuel + 1) multiply.function (ns.map .int)).Exact "*"
    ((ns.map Int64.toInt).scanl (· * ·) 1) (ns.map Int64.toInt).prod
  := by
  rw [call_function multiply fuel rfl, List.prod_eq_foldl]
  exact accumulate_exact "*" (· * ·) (· * ·) 1 ns

/-- The opposite of an integer is exact. -/
theorem negate_exact (fuel : Nat) (n : Int64) :
  (Value.call (fuel + 1) subtract.function [.int n]).Exact "-" [0, -n.toInt] (-n.toInt)
  := by
  rw [call_function subtract fuel rfl, ← Int.zero_sub]
  exact accumulate_exact "-" (· - ·) (· - ·) 0 [n]

/-- Subtracting one number after another subtracts their sum. -/
theorem foldl_sub (n : Int) (ns : List Int) :
  ns.foldl (· - ·) n = n - ns.sum
  := by
  induction ns generalizing n with
  | nil => exact (Int.sub_zero n).symm
  | cons k ns ih => rw [List.foldl_cons, ih, List.sum_cons, Int.sub_sub]

/-- A difference is exact. -/
theorem subtract_exact (fuel : Nat) (n : Int64) {ns : List Int64} (h : ns ≠ []) :
  (Value.call (fuel + 1) subtract.function (.int n :: ns.map .int)).Exact "-"
    ((ns.map Int64.toInt).scanl (· - ·) n.toInt) (n.toInt - (ns.map Int64.toInt).sum)
  := by
  obtain ⟨k, ks, rfl⟩ := List.exists_cons_of_ne_nil h
  have hcompute : compute .subtract (.int n :: (k :: ks).map .int) =
      accumulate "-" (· - ·) (· - ·) (.int n) ((k :: ks).map .int) := by
    rw [List.map_cons, compute, argument_int, pure_bind]
    · exact fun h => List.cons_ne_nil _ _ h
  rw [call_function subtract fuel rfl, ArithmeticOp.apply, hcompute, ← foldl_sub]
  exact accumulate_exact "-" (· - ·) (· - ·) n (k :: ks)

/-- The function for division, given a dividend and divisors. -/
theorem call_divide (fuel : Nat) (n : Int64) {vs : List Value} (h : vs ≠ []) :
  Value.call (fuel + 1) divide.function (.int n :: vs) =
    (do return (← divideAll (.int n) vs).toValue)
  := by
  obtain ⟨v, vs, rfl⟩ := List.exists_cons_of_ne_nil h
  rw [call_function divide fuel rfl]
  rfl

/-- The inverse of an integer is the quotient of one by it. -/
theorem call_divide_one (fuel : Nat) (d : Int64) :
  Value.call (fuel + 1) divide.function [.int d] =
    Value.call (fuel + 1) divide.function [.int 1, .int d]
  := by
  rw [call_divide fuel 1 (List.cons_ne_nil _ _), call_function divide fuel rfl]
  rfl

/-- A quotient by divisors that divide a number exactly is exact, and it is a fault when one of the
quotients on the way does not fit. -/
theorem divide_exact (fuel : Nat) {n : Int64} {ds : List Int64} (hne : ds ≠ [])
    (hzero : ∀ d ∈ ds, d ≠ 0) (hdvd : (ds.map Int64.toInt).prod ∣ n.toInt) :
  ((∀ q ∈ (ds.map Int64.toInt).scanl (· / ·) n.toInt, Number.fitsWord q = true) →
    ∃ q : Int64, q.toInt * (ds.map Int64.toInt).prod = n.toInt ∧
      Value.call (fuel + 1) divide.function (.int n :: ds.map .int) = pure (.int q)) ∧
  ((∃ q ∈ (ds.map Int64.toInt).scanl (· / ·) n.toInt, Number.fitsWord q = false) →
    Value.call (fuel + 1) divide.function (.int n :: ds.map .int) =
      throw (.fault remainderOverflow))
  := by
  have hne' : ds.map Value.int ≠ [] := fun h => hne (List.map_eq_nil_iff.1 h)
  rw [call_divide fuel n hne']
  constructor
  · intro hfits
    obtain ⟨q, hq, hdivide⟩ := divideAll_of_dvd hzero hdvd ((quotients_fit_iff hzero hdvd).1 hfits)
    refine ⟨q, hq, ?_⟩
    rw [hdivide, pure_bind]
    rfl
  · rintro ⟨q, hq, hfits⟩
    have hleast : n = Int64.minValue ∧ ByMinusOne (ds.map .int) := by
      by_contra h
      exact Bool.eq_false_iff.1 hfits ((quotients_fit_iff hzero hdvd).2 h q hq)
    funext m
    have hfault : (divideAll (.int n) (ds.map .int)).Faults m remainderOverflow m :=
      divideAll_faults_iff.2 ⟨congrArg _ hleast.1, hleast.2, rfl, rfl⟩
    exact hfault.bind

/-- The first divisor that is zero raises a condition. -/
theorem divide_zero (fuel : Nat) {n : Int64} {ds : List Int64} (hzero : ∀ d ∈ ds, d ≠ 0)
    (hleast : ¬(n = Int64.minValue ∧ ByMinusOne (ds.map .int))) (rest : List Value) :
  Value.call (fuel + 1) divide.function (.int n :: (ds.map .int ++ .int 0 :: rest)) =
    Run.raise .divisionByZero "/: division by zero"
  := by
  rw [call_divide fuel n (List.append_ne_nil_of_right_ne_nil _ (List.cons_ne_nil _ _)),
    divideAll_zero hzero (fun h => hleast ⟨Numeric.int.inj h.1, h.2⟩)]
  exact Run.raise_bind _ _ _

/-- The function for remainders, given integers. -/
theorem call_modulo (fuel : Nat) (a b : Int64) :
  Value.call (fuel + 1) modulo.function [.int a, .int b] =
    (do return (← remainder a b).toValue)
  := call_function modulo fuel rfl

/-- The remainder of the least integer by minus one, which is zero, raises a condition. -/
theorem modulo_least (fuel : Nat) :
  Value.call (fuel + 1) modulo.function [.int Int64.minValue, .int (-1)] =
    Run.raise .error "mod: integer overflow"
  := call_modulo fuel _ _

/-- The quotient of two integers is an integer when the remainder is zero, and otherwise a float. -/
theorem divide_of_modulo (fuel : Nat) {a b : Int64} (hb : b ≠ 0)
    (h : ¬(a = Int64.minValue ∧ b = -1)) :
  (b.toInt ∣ a.toInt → ∃ q : Int64, q.toInt * b.toInt = a.toInt ∧
    Value.call (fuel + 1) divide.function [.int a, .int b] = pure (.int q)) ∧
  (¬b.toInt ∣ a.toInt →
    Value.call (fuel + 1) divide.function [.int a, .int b] = pure (.float (a.toFloat / b.toFloat)))
  := by
  rw [call_divide fuel a (List.cons_ne_nil _ _), divideAll_cons _ hb]
  constructor
  · intro hdvd
    obtain ⟨q, hq, hquotient⟩ := quotient_of_dvd h hdvd
    refine ⟨q, hq, ?_⟩
    rw [hquotient]
    rfl
  · intro hdvd
    rw [quotient_of_not_dvd hdvd]
    rfl

end ArithmeticOp

open ArithmeticOp

/-- Functions on numbers compute exactly with integers: sums, products and differences with a
partial result that does not fit raise a condition, and so does a divisor that is zero.  The
quotient that does not fit stops the program, which nothing else does. -/
theorem integers_computed_exactly (fuel : Nat) :
  (∀ ns : List Int64, (Value.call (fuel + 1) add.function (ns.map .int)).Exact "+"
    ((ns.map Int64.toInt).scanl (· + ·) 0) (ns.map Int64.toInt).sum) ∧
  (∀ ns : List Int64, (Value.call (fuel + 1) multiply.function (ns.map .int)).Exact "*"
    ((ns.map Int64.toInt).scanl (· * ·) 1) (ns.map Int64.toInt).prod) ∧
  (∀ n : Int64, (Value.call (fuel + 1) subtract.function [.int n]).Exact "-"
    [0, -n.toInt] (-n.toInt)) ∧
  (∀ (n : Int64) (ns : List Int64), ns ≠ [] →
    (Value.call (fuel + 1) subtract.function (.int n :: ns.map .int)).Exact "-"
      ((ns.map Int64.toInt).scanl (· - ·) n.toInt) (n.toInt - (ns.map Int64.toInt).sum)) ∧
  (∀ d : Int64, Value.call (fuel + 1) divide.function [.int d] =
    Value.call (fuel + 1) divide.function [.int 1, .int d]) ∧
  (∀ (n : Int64) (ds : List Int64), ds ≠ [] → (∀ d ∈ ds, d ≠ 0) →
    (ds.map Int64.toInt).prod ∣ n.toInt →
    ((∀ q ∈ (ds.map Int64.toInt).scanl (· / ·) n.toInt, Number.fitsWord q = true) →
      ∃ q : Int64, q.toInt * (ds.map Int64.toInt).prod = n.toInt ∧
        Value.call (fuel + 1) divide.function (.int n :: ds.map .int) = pure (.int q)) ∧
    ((∃ q ∈ (ds.map Int64.toInt).scanl (· / ·) n.toInt, Number.fitsWord q = false) →
      Value.call (fuel + 1) divide.function (.int n :: ds.map .int) =
        throw (.fault remainderOverflow))) ∧
  (∀ (n : Int64) (ds : List Int64) (rest : List Value), (∀ d ∈ ds, d ≠ 0) →
    ¬(n = Int64.minValue ∧ ByMinusOne (ds.map .int)) →
    Value.call (fuel + 1) divide.function (.int n :: (ds.map .int ++ .int 0 :: rest)) =
      Run.raise .divisionByZero "/: division by zero") ∧
  (∀ (op : ArithmeticOp) (vs : List Value) (m m' : Machine) (message : String),
    (Value.call (fuel + 1) op.function vs).Faults m message m' ↔
      op = .divide ∧ (∃ ds, vs = .int Int64.minValue :: ds ∧ ByMinusOne ds) ∧
        message = remainderOverflow ∧ m' = m)
  :=
  ⟨add_exact fuel, multiply_exact fuel, negate_exact fuel, fun n _ => subtract_exact fuel n,
    call_divide_one fuel, fun _ _ => divide_exact fuel,
    fun _ _ rest hzero hleast => divide_zero fuel hzero hleast rest,
    fun op _ _ _ _ => function_faults_iff op fuel⟩

/-- The greatest integer plus one raises a condition, the quotient of twelve by two and by three is
two, and the least integer divided by one and by minus one stops the program. -/
theorem integers_at_limits_computed :
  Value.call 1 add.function [.int Int64.maxValue, .int 1] =
    Run.raise .error "+: integer overflow" ∧
  (∃ q : Int64, q.toInt * 6 = 12 ∧
    Value.call 1 divide.function [.int 12, .int 2, .int 3] = pure (.int q)) ∧
  Value.call 1 divide.function [.int Int64.minValue, .int 1, .int (-1)] =
    throw (.fault remainderOverflow) ∧
  Value.call 1 divide.function [.int 7, .int 2, .int 0, .int 0] =
    Run.raise .divisionByZero "/: division by zero"
  := by
  obtain ⟨hadd, -, -, -, -, hdivide, hzero, -⟩ := integers_computed_exactly 0
  have htwo : ∀ d ∈ ([2] : List Int64), d ≠ 0 := List.forall_mem_singleton.2 (by decide)
  have hthree : ∀ d ∈ ([2, 3] : List Int64), d ≠ 0 :=
    List.forall_mem_cons.2 ⟨by decide, List.forall_mem_singleton.2 (by decide)⟩
  have hminus : ∀ d ∈ ([1, -1] : List Int64), d ≠ 0 :=
    List.forall_mem_cons.2 ⟨by decide, List.forall_mem_singleton.2 (by decide)⟩
  refine ⟨?_, ?_, ?_, ?_⟩
  · exact (hadd [Int64.maxValue, 1]).overflow ⟨2 ^ 63, by decide, by decide⟩
  · exact (hdivide 12 [2, 3] (by decide) hthree (by decide)).1 (by decide)
  · exact (hdivide Int64.minValue [1, -1] (by decide) hminus (by decide)).2
      ⟨2 ^ 63, by decide, by decide⟩
  · exact hzero 7 [2] [.int 0] htwo fun h => absurd h.1 (by decide)

/-- The remainder of two integers is smaller than the divisor, is zero or has its sign, and leaves a
multiple of it; it is zero exactly when the quotient is an integer.  For the least integer and minus
one there is a condition instead. -/
theorem remainder_agrees_with_quotient (fuel : Nat) {a b : Int64} (hb : b ≠ 0) :
  (a = Int64.minValue ∧ b = -1 →
    Value.call (fuel + 1) modulo.function [.int a, .int b] =
      Run.raise .error "mod: integer overflow") ∧
  (¬(a = Int64.minValue ∧ b = -1) → ∃ r : Int64,
    Value.call (fuel + 1) modulo.function [.int a, .int b] = pure (.int r) ∧
    r.toInt.natAbs < b.toInt.natAbs ∧
    (r.toInt = 0 ∨ (r.toInt < 0 ↔ b.toInt < 0)) ∧
    b.toInt ∣ a.toInt - r.toInt ∧
    (r.toInt = 0 → ∃ q : Int64, q.toInt * b.toInt = a.toInt ∧
      Value.call (fuel + 1) divide.function [.int a, .int b] = pure (.int q)) ∧
    (r.toInt ≠ 0 → Value.call (fuel + 1) divide.function [.int a, .int b] =
      pure (.float (a.toFloat / b.toFloat))))
  := by
  refine ⟨?_, fun h => ?_⟩
  · rintro ⟨rfl, rfl⟩
    exact modulo_least fuel
  obtain ⟨r, hr, hremainder⟩ := remainder_eq hb h
  have hb' : b.toInt ≠ 0 := fun hzero => hb (Int64.toInt_inj.1 hzero)
  obtain ⟨hlt, hsign⟩ := floored_bounds a.toInt hb'
  obtain ⟨hexact, hinexact⟩ := divide_of_modulo fuel hb h
  refine ⟨r, ?_, ?_⟩
  · rw [call_modulo, hremainder]
    rfl
  · rw [hr]
    have hzero := floored_eq_zero_iff a.toInt hb'
    exact ⟨hlt, hsign, dvd_sub_floored _ _, fun h => hexact (hzero.1 h),
      fun h => hinexact fun hdvd => h (hzero.2 hdvd)⟩

/-- The remainder of minus seven by three. -/
theorem remainder_of_minus_seven :
  (3 : Int64) ≠ 0 ∧ ∃ r : Int64,
    Value.call 1 modulo.function [.int (-7), .int 3] = pure (.int r) ∧
    r.toInt.natAbs < 3 ∧ (r.toInt = 0 ∨ (r.toInt < 0 ↔ (3 : Int) < 0)) ∧ 3 ∣ -7 - r.toInt
  := by
  have hb : (3 : Int64) ≠ 0 := by decide
  have hleast : ¬((-7 : Int64) = Int64.minValue ∧ (3 : Int64) = -1) := fun h =>
    absurd h.1 (by decide)
  obtain ⟨r, hr, hlt, hsign, hdvd, -⟩ := (remainder_agrees_with_quotient 0 hb).2 hleast
  exact ⟨hb, r, hr, hlt, hsign, hdvd⟩

/-- The least integer has no remainder by minus one, although it is divided exactly. -/
theorem least_remainder_not_given :
  (-1 : Int64) ≠ 0 ∧ (-1 : Int64).toInt ∣ Int64.minValue.toInt - 0 ∧
  ∀ r : Int64, Value.call 1 modulo.function [.int Int64.minValue, .int (-1)] ≠ pure (.int r)
  := by
  refine ⟨by decide, by decide, fun r hr => ?_⟩
  rw [modulo_least] at hr
  cases congrFun hr default

end Skein
