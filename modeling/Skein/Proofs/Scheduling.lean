import Skein.Proofs.Regime.Everything

/-!
# Timers

Whatever a program does, all that happens to the timers, the clock and the number of timers is
that new timers are scheduled: they wait behind those that waited, are numbered on, and are
not due in the past.  The event loop alone takes timers away, always the one that is due
before all others, and turns the clock to it.  A timetable says what is true of the timers that
have been scheduled and of those that have been fired, when only these two things happen.
-/

namespace Skein

open Run Trampoline

/-! ### The order of timers -/

/-- A timer is due before another one: its deadline is earlier, or the same and its number is
smaller. -/
def Timer.Before (t u : Timer) : Prop :=
  t.deadline < u.deadline ∨ t.deadline = u.deadline ∧ t.order < u.order

namespace Timer

variable {t u w : Timer}

/-- No timer is due before itself. -/
theorem Before.irrefl (t : Timer) :
  ¬ t.Before t
  := by
  rintro (h | ⟨-, h⟩)
  · exact Nat.lt_irrefl _ h
  · exact Nat.lt_irrefl _ h

/-- A timer that is due before another one is not due later. -/
theorem Before.deadline_le (h : t.Before u) :
  t.deadline ≤ u.deadline
  := by
  rcases h with h | ⟨h, -⟩
  · exact Nat.le_of_lt h
  · exact Nat.le_of_eq h

/-- Between two timers of which one is due before the other there is no third one that is due
neither after the first nor before the second. -/
theorem Before.cases (h : t.Before u) (w : Timer) :
  t.Before w ∨ w.Before u
  := by
  unfold Before at h ⊢
  omega

/-- Of two timers with different numbers one is due before the other. -/
theorem before_of_not (h : ¬ u.Before t) (hne : t.order ≠ u.order) :
  t.Before u
  := by
  unfold Before at h ⊢
  omega

end Timer

namespace TimerOp

/-- The one of two timers that is due first. -/
def sooner (t u : Timer) : Timer :=
  if u.deadline < t.deadline || (u.deadline = t.deadline && u.order < t.order) then u else t

/-- Of two timers neither is due before the one that is due first. -/
theorem sooner_spec (t u : Timer) :
  (sooner t u = t ∨ sooner t u = u) ∧ ¬ t.Before (sooner t u) ∧ ¬ u.Before (sooner t u)
  := by
  have hcond : (u.deadline < t.deadline || (u.deadline = t.deadline && u.order < t.order)) = true ↔
      u.Before t := by
    simp [Timer.Before]
  unfold sooner
  split
  · rename_i h
    refine ⟨.inr rfl, fun hbefore => ?_, Timer.Before.irrefl u⟩
    have := hcond.1 h
    unfold Timer.Before at this hbefore
    omega
  · rename_i h
    exact ⟨.inl rfl, Timer.Before.irrefl t, fun hbefore => h (hcond.2 hbefore)⟩

/-- The search goes on with the sooner one of the best timer so far and the next one. -/
theorem due?_cons_cons (t u : Timer) (ts : List Timer) :
  due? (t :: u :: ts) = due? (sooner t u :: ts)
  := by
  unfold due? sooner
  rw [List.foldl_cons, List.foldl_cons, List.foldl_cons]
  dsimp only
  split <;> rfl

/-- Of some timers, there is one before which no other one is due. -/
theorem exists_due? (t : Timer) (ts : List Timer) :
  ∃ first, due? (t :: ts) = some first ∧ first ∈ t :: ts ∧ ∀ u ∈ t :: ts, ¬ u.Before first
  := by
  induction ts generalizing t with
  | nil => exact ⟨t, rfl, List.mem_singleton_self t, by simpa using Timer.Before.irrefl t⟩
  | cons u ts ih =>
    obtain ⟨first, hfirst, hmem, hleast⟩ := ih (sooner t u)
    obtain ⟨heither, ht, hu⟩ := sooner_spec t u
    obtain ⟨hsooner, hleast⟩ := List.forall_mem_cons.1 hleast
    refine ⟨first, (due?_cons_cons t u ts).trans hfirst, ?_, ?_⟩
    · rcases List.mem_cons.1 hmem with rfl | hmem
      · exact List.mem_cons.2 (heither.imp_right fun heq => List.mem_cons.2 (.inl heq))
      · exact List.mem_cons_of_mem t (List.mem_cons_of_mem u hmem)
    · -- a timer that is due before the first one is due before the sooner one or after it
      have hkept : ∀ w : Timer, ¬ w.Before (sooner t u) → ¬ w.Before first := fun w hw h =>
        (h.cases (sooner t u)).elim hw hsooner
      exact List.forall_mem_cons.2 ⟨hkept t ht, List.forall_mem_cons.2 ⟨hkept u hu, hleast⟩⟩

end TimerOp

/-! ### What programs do to timers -/

/-- All that happens to the timers is that new ones are scheduled. -/
def Machine.SchedulesOnly (m m' : Machine) : Prop := ∃ new, m.Schedules new m'

namespace Machine

variable {m m' m₁ m₂ : Machine} {new : List Timer}

/-- The timers that have been scheduled wait behind those that waited. -/
theorem Schedules.drop (h : m.Schedules new m') :
  m'.timers.drop m.timers.length = new
  := by
  rw [h.timers, List.drop_left]

/-- Where only new timers are scheduled, these are the ones that wait behind the others. -/
theorem SchedulesOnly.schedules (h : m.SchedulesOnly m') :
  m.Schedules (m'.timers.drop m.timers.length) m'
  := by
  obtain ⟨new, h⟩ := h
  rwa [h.drop]

/-- Nothing has happened to the timers. -/
theorem SchedulesOnly.of_eq (hc : m'.clock = m.clock) (ht : m'.timers = m.timers)
    (hs : m'.scheduled = m.scheduled) :
  m.SchedulesOnly m'
  := ⟨[], .of_eq hc ht hs⟩

/-- New timers are scheduled, and then new ones again. -/
theorem SchedulesOnly.trans (h : m.SchedulesOnly m₁) (h₁ : m₁.SchedulesOnly m₂) :
  m.SchedulesOnly m₂
  := by
  obtain ⟨new, h⟩ := h
  obtain ⟨new₁, h₁⟩ := h₁
  exact ⟨new ++ new₁, h.trans h₁⟩

/-- Changing the levels schedules nothing. -/
theorem SchedulesOnly.levels (m : Machine) (levels : List Level) :
  m.SchedulesOnly { m with levels }
  := .of_eq rfl rfl rfl

/-- The computations of a level schedule timers only. -/
theorem SchedulesOnly.of_drains (h : (Regime.everything SchedulesOnly).Drains m m') :
  m.SchedulesOnly m'
  := h.keeps SchedulesOnly.trans fun _ => SchedulesOnly.levels _ _

/-- Every operation of the machine schedules timers only. -/
theorem schedulesOnly_keeping :
  (Regime.everything SchedulesOnly).Keeping
  where
  refl _ := .of_eq rfl rfl rfl
  trans := .trans
  inert h := h.timers
  noted _ := .of_eq rfl rfl rfl
  enqueued _ _ := .levels _ _
  counted _ _ := .levels _ _
  entering := fun ⟨new, h⟩ => ⟨new, h.clock, h.timers, h.scheduled, h.orders, h.due⟩
  outside := fun ⟨new, h⟩ => ⟨new, h.clock, h.timers, h.scheduled, h.orders, h.due⟩
  bounce _ h := by
    obtain ⟨new, h⟩ := SchedulesOnly.of_drains h
    exact ⟨new, h.clock, h.timers, h.scheduled, h.orders, h.due⟩
  push _ _ _ := .of_eq rfl rfl rfl
  pop _ _ _ _ _ := .of_eq rfl rfl rfl

end Machine

/-- A call schedules timers only. -/
theorem Value.call_schedules {c : Nat} {f : Value} {vs : List Value} {m m' : Machine}
    {r : Ended Value} (h : (Value.call c f vs).Gives m r m') :
  m.SchedulesOnly m'
  := by
  have hkeeps := Regime.everything_call Machine.schedulesOnly_keeping c f vs trivial
    fun _ _ => trivial
  exact hkeeps.kept h

/-! ### What the event loop does to timers -/

/-- The timer that is due before all others is taken away, and the clock is turned forward to its
deadline. -/
structure Machine.Turns (m : Machine) (t : Timer) (m' : Machine) : Prop where
  waits : ∃ earlier later, m.timers = earlier ++ t :: later ∧
    m' = { m with clock := t.deadline, timers := earlier ++ later }
  first : ∀ u ∈ m'.timers, t.Before u
  forward : m.clock ≤ t.deadline

/-- A change of the machine gives what it is said to give. -/
theorem Run.gives_modifyGet {α : Type} (f : Machine → α × Machine) (m : Machine) :
  (modifyGet f : Run α).Gives m (.ok (f m).1) (f m).2
  := rfl

/-- When no timer waits, none is taken. -/
theorem TimerOp.gives_take_none {m : Machine} (h : m.timers = []) :
  take.Gives m (.ok none) m
  := by
  have htake : take.Gives m _ _ := gives_modifyGet _ m
  have hdue : due? m.timers = none := by rw [h]; rfl
  rwa [hdue] at htake

/-- The timer that is due first is taken. -/
theorem TimerOp.gives_take_some {m : Machine} {t : Timer} (h : due? m.timers = some t) :
  take.Gives m (.ok (some t))
    { m with clock := t.deadline, timers := m.timers.filter (·.order ≠ t.order) }
  := by
  have htake : take.Gives m _ _ := gives_modifyGet _ m
  rwa [h] at htake

/-- Of timers with different numbers, all but one have other numbers than that one. -/
theorem Timer.filter_order_ne {earlier later : List Timer} {t : Timer}
    (h : ((earlier ++ t :: later).map (·.order)).Nodup) :
  (earlier ++ t :: later).filter (·.order ≠ t.order) = earlier ++ later
  := by
  have hne : ∀ u ∈ earlier ++ later, u.order ≠ t.order := by
    intro u hu heq
    have hperm : ((t :: (earlier ++ later)).map (·.order)).Nodup :=
      (List.perm_middle.map _).nodup_iff.1 h
    exact (List.nodup_cons.1 hperm).1 (List.mem_map.2 ⟨u, hu, heq⟩)
  have hkept : (earlier ++ later).filter (·.order ≠ t.order) = earlier ++ later :=
    List.filter_eq_self.2 fun u hu => decide_eq_true (hne u hu)
  rw [List.filter_append, List.filter_cons_of_neg (by simp), ← List.filter_append, hkept]

/-- The event loop turns to the timer that is due first, where timers have different numbers and
are not due in the past. -/
theorem TimerOp.take_turns {m m' : Machine} {t : Timer}
    (hnodup : (m.timers.map (·.order)).Nodup) (hdue : ∀ t ∈ m.timers, m.clock ≤ t.deadline)
    (h : take.Gives m (.ok (some t)) m') :
  m.Turns t m'
  := by
  cases hts : m.timers with
  | nil => cases (h.unique (gives_take_none hts)).1
  | cons u ts =>
    obtain ⟨first, hfirst, hmem, hleast⟩ := exists_due? u ts
    rw [← hts] at hfirst hmem hleast
    obtain ⟨heq, rfl⟩ := h.unique (gives_take_some hfirst)
    cases heq
    obtain ⟨earlier, later, hsplit⟩ := List.append_of_mem hmem
    have hfilter : m.timers.filter (·.order ≠ t.order) = earlier ++ later := by
      rw [hsplit] at hnodup ⊢
      exact Timer.filter_order_ne hnodup
    refine ⟨⟨earlier, later, hsplit, by rw [hfilter]⟩, fun u hu => ?_, hdue t hmem⟩
    obtain ⟨hu, hne⟩ := List.mem_filter.1 hu
    exact Timer.before_of_not (hleast u hu) (of_decide_eq_true hne).symm

/-! ### Timetables -/

/-- What is true when timers have been scheduled since `start` of them had been, and some of
them have been fired, in this order.  They are numbered from there on; the ones that have been
fired and the ones that wait are all of them, each once; they have been fired in the order in
which they are due, before the ones that wait; and the clock is between them. -/
structure Timetable (start : Nat) (scheduled fired : List Timer) (m : Machine) : Prop where
  numbers : scheduled.map (·.order) = List.range' (start + 1) scheduled.length
  count : m.scheduled = start + scheduled.length
  once : (fired ++ m.timers).Perm scheduled
  increasing : fired.Pairwise Timer.Before
  before : ∀ t ∈ fired, ∀ u ∈ m.timers, t.Before u
  past : ∀ t ∈ fired, t.deadline ≤ m.clock
  due : ∀ t ∈ m.timers, m.clock ≤ t.deadline

namespace Timetable

variable {start : Nat} {scheduled fired : List Timer} {m m' : Machine}

/-- Where no timer waits, no timer has been scheduled so far. -/
theorem of_nil (h : m.timers = []) :
  Timetable m.scheduled [] [] m
  where
  numbers := rfl
  count := rfl
  once := by rw [h]; exact .refl _
  increasing := .nil
  before _ ht := absurd ht List.not_mem_nil
  past _ ht := absurd ht List.not_mem_nil
  due _ ht := by rw [h] at ht; exact absurd ht List.not_mem_nil

/-- The numbers of the timers that have been scheduled are different. -/
theorem nodup (h : Timetable start scheduled fired m) :
  ((fired ++ m.timers).map (·.order)).Nodup
  := by
  rw [(h.once.map _).nodup_iff, h.numbers]
  exact List.nodup_range'

/-- The numbers of the timers that have been scheduled are not above the number of timers. -/
theorem order_le (h : Timetable start scheduled fired m) {t : Timer} (ht : t ∈ fired) :
  t.order ≤ m.scheduled
  := by
  have hmem : t.order ∈ scheduled.map (·.order) :=
    List.mem_map_of_mem (h.once.subset (List.mem_append_left _ ht))
  rw [h.numbers, List.mem_range'_1] at hmem
  rw [h.count]
  omega

/-- Scheduling timers adds to a timetable. -/
theorem schedule (h : Timetable start scheduled fired m) {new : List Timer}
    (hnew : m.Schedules new m') :
  Timetable start (scheduled ++ new) fired m'
  where
  numbers := by
    rw [List.map_append, h.numbers, hnew.orders, h.count, List.length_append, Nat.add_right_comm,
      List.range'_append_1]
  count := by rw [hnew.scheduled, h.count, List.length_append, Nat.add_assoc]
  once := by
    rw [hnew.timers, ← List.append_assoc]
    exact h.once.append_right new
  increasing := h.increasing
  before t ht u hu := by
    rw [hnew.timers] at hu
    rcases List.mem_append.1 hu with hu | hu
    · exact h.before t ht u hu
    · -- a new timer is not due in the past, and has a larger number than those before it
      have hdeadline := Nat.le_trans (h.past t ht) (hnew.due u hu)
      have horder : u.order ∈ List.range' (m.scheduled + 1) new.length :=
        hnew.orders ▸ List.mem_map_of_mem hu
      rw [List.mem_range'_1] at horder
      have := h.order_le ht
      unfold Timer.Before
      omega
  past t ht := hnew.clock ▸ h.past t ht
  due t ht := by
    rw [hnew.timers] at ht
    rw [hnew.clock]
    exact (List.mem_append.1 ht).elim (h.due t) (hnew.due t)

/-- Firing the timer that is due first goes on with a timetable. -/
theorem turn (h : Timetable start scheduled fired m) {t : Timer} (ht : m.Turns t m') :
  Timetable start scheduled (fired ++ [t]) m'
  := by
  obtain ⟨⟨earlier, later, hsplit, rfl⟩, hfirst, -⟩ := ht
  have hwaits : ∀ u ∈ earlier ++ later, u ∈ m.timers := fun u hu =>
    hsplit ▸ List.perm_middle.symm.subset (List.mem_cons_of_mem t hu)
  have hmem : t ∈ m.timers := hsplit ▸ List.mem_append_right _ List.mem_cons_self
  exact {
    numbers := h.numbers
    count := h.count
    once := by
      have hmiddle : (fired ++ [t] ++ (earlier ++ later)).Perm (fired ++ m.timers) := by
        rw [hsplit, List.append_assoc, List.singleton_append]
        exact List.perm_middle.symm.append_left fired
      exact hmiddle.trans h.once
    increasing := List.pairwise_append.2 ⟨h.increasing, List.pairwise_singleton _ t,
      fun u hu w hw => List.mem_singleton.1 hw ▸ h.before u hu t hmem⟩
    before := by
      intro u hu w hw
      rcases List.mem_append.1 hu with hu | hu
      · exact h.before u hu w (hwaits w hw)
      · exact List.mem_singleton.1 hu ▸ hfirst w hw
    past := by
      intro u hu
      rcases List.mem_append.1 hu with hu | hu
      · exact (h.before u hu t hmem).deadline_le
      · exact Nat.le_of_eq (congrArg _ (List.mem_singleton.1 hu))
    due := fun u hu => (hfirst u hu).deadline_le }

/-- The event loop fires the timer that is due first. -/
theorem take_turns (h : Timetable start scheduled fired m) {t : Timer}
    (ht : TimerOp.take.Gives m (.ok (some t)) m') :
  m.Turns t m'
  := by
  have hnodup := h.nodup
  rw [List.map_append] at hnodup
  exact TimerOp.take_turns (List.nodup_append.1 hnodup).2.1 h.due ht

end Timetable

end Skein
