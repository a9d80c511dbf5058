import Skein.Proofs.Regime.Stock
import Skein.Proofs.Starting

/-!
# How many levels are active

Work that is resumed waits in the innermost level of the trampoline.  Where a program cannot
come to a function that opens a level of its own, a coroutine that is started runs in one
level, however often it is suspended and however often its loops are entered anew.
-/

namespace Skein

open Run Trampoline Coroutine

variable {m m' : Machine} {coroutine resolve reject : Value} {r : Ended Value}

/-! ### Starting, backwards -/

namespace Trampoline

/-- A level is closed when it has come to something. -/
theorem bounce_level {call : Call} {fuel : Nat} {start : Run Value}
    (h : (bounce call fuel start).Gives m r m') :
  ∃ m₁, (inLevel call fuel start).Gives { m with levels := ⟨[], 0⟩ :: m.levels } (.ok r) m₁ ∧
    m' = { m₁ with levels := m₁.levels.tail }
  := by
  unfold Gives at h
  rw [bounce_eq] at h
  rcases gives_bind_iff.1 h with ⟨s, m₁, hlevel, h⟩ | ⟨d, _, hlevel⟩
  · rcases gives_bind_iff.1 h with ⟨_, _, hclose, h⟩ | ⟨_, _, hclose⟩
    · cases hclose
      obtain ⟨rfl, rfl⟩ := (gives_ofExcept s _).unique h
      exact ⟨m₁, hlevel, rfl⟩
    · cases hclose
  · exact absurd hlevel (inLevel_ne_raised _ _ _ _ _ _)

/-- A coroutine that is started runs in a level of its own. -/
theorem start_level {call : Call} {fuel : Nat} {s : Ended Nat}
    (h : (start call fuel coroutine resolve reject).Gives m s m') :
  ∃ result m₁, (inLevel call fuel (startWith call m.nextExecution coroutine
      (m.successFor resolve) (m.failureFor reject))).Gives m.launched result m₁ ∧
    m' = { m₁ with levels := m₁.levels.tail, context := m.context }
  := by
  let began : Machine := { m with
    heap := { m.heap with executions := m.heap.executions.push .running }
    nextId := m.nextId + 2 }
  have hentering : ∃ r, (entering (m.context.driving m.nextExecution)
      (bounce call fuel (startWith call m.nextExecution coroutine (m.successFor resolve)
        (m.failureFor reject)))).Gives began r m' := by
    have h : (entering (m.context.driving m.nextExecution)
        (bounce call fuel (startWith call m.nextExecution coroutine (m.successFor resolve)
          (m.failureFor reject))) >>= fun _ => pure m.nextExecution).Gives began s m' := h
    rcases gives_bind_iff.1 h with
      ⟨v, m₂, hentering, h⟩ | ⟨d, _, hentering⟩
    · obtain ⟨-, rfl⟩ := (gives_pure m.nextExecution m₂).unique h
      exact ⟨_, hentering⟩
    · exact ⟨_, hentering⟩
  obtain ⟨r, hentering⟩ := hentering
  obtain ⟨m₂, hbounce, rfl⟩ := gives_entering_iff.1 hentering
  obtain ⟨m₁, hlevel, rfl⟩ := bounce_level hbounce
  exact ⟨_, m₁, hlevel, rfl⟩

end Trampoline

/-- What comes after a check of an argument comes on the same machine, if at all. -/
theorem checkFunction_bind {name : String} {v : Value} {k : Unit → Run Value}
    (h : (Argument.checkFunction name v >>= k).Gives m r m') :
  m' = m ∨ (k ()).Gives m r m'
  := by
  unfold Argument.checkFunction at h
  split at h
  · exact .inr h
  · exact .inl ((gives_raise _ m).bind_error.unique h).2.symm

/-- The start of a coroutine either refuses its arguments or runs the coroutine in a level of
its own. -/
theorem run_level (h : (Value.native (.primitive (.coroutine .run))).CallEnds
    [coroutine, resolve, reject] m r m') :
  m' = m ∨ ∃ c result m₁, (inLevel (Value.call c) c (startWith (Value.call c) m.nextExecution
      coroutine (m.successFor resolve) (m.failureFor reject))).Gives m.launched result m₁ ∧
    m' = { m₁ with levels := m₁.levels.tail, context := m.context }
  := by
  obtain ⟨n, h⟩ := h
  have hop : (CoroutineOp.run.apply (Value.call n) n [coroutine, resolve, reject]).Gives m r m' :=
    h (n + 1) (n + 1) (Nat.le_succ n) (Nat.le_succ n)
  rcases checkFunction_bind hop with hm | hop
  · exact .inl hm
  rcases checkFunction_bind hop with hm | hop
  · exact .inl hm
  rcases checkFunction_bind hop with hm | hop
  · exact .inl hm
  rcases gives_bind_iff.1 hop with ⟨id, m₁, hstart, hop⟩ | ⟨_, _, hstart⟩
  · obtain ⟨-, rfl⟩ := (gives_pure (Value.execution id) m₁).unique hop
    exact .inr ⟨n, start_level hstart⟩
  · exact .inr ⟨n, start_level hstart⟩

/-! ### One level -/

/-- A computation leaves as many levels as it found, and what it notes of their number is at
most one, or at most that number. -/
structure Machine.KeepsLevels (m m' : Machine) : Prop where
  depth : m'.levels.length = m.levels.length
  noted : ∃ new, m'.stage.depths = m.stage.depths.map (new ++ ·) ∧
    ∀ d ∈ new, d ≤ max 1 m.levels.length

/-- Nothing that a computation does changes the levels and what is noted of them. -/
theorem Machine.KeepsLevels.of_eq (hl : m'.levels.length = m.levels.length)
    (hd : m'.stage.depths = m.stage.depths) :
  m.KeepsLevels m'
  where
  depth := hl
  noted := ⟨[], by rw [hd]; cases m.stage.depths <;> rfl, fun _ h => absurd h List.not_mem_nil⟩

/-- Values that open no level, and whose trees mention only some names. -/
def Stock.withoutLevels (N : Symbol → Prop) : Stock where
  builtin _ := True
  primitive p := p ≠ .coroutine .run ∧ p ≠ .coroutine .unwind
  body e := ∀ x, e.Mentions x → N x
  nests := False
  run h := h.1 rfl
  unwind h := h.2 rfl

/-- A change of the innermost level keeps the levels. -/
theorem Machine.KeepsLevels.level {level level' : Level} {levels : List Level}
    (hl : m.levels = level :: levels) :
  m.KeepsLevels { m with levels := level' :: levels }
  := .of_eq (by rw [hl]; rfl) rfl

/-- Levels that are kept twice are kept. -/
theorem Machine.KeepsLevels.trans {m m₁ m₂ : Machine} (h : m.KeepsLevels m₁)
    (h₁ : m₁.KeepsLevels m₂) :
  m.KeepsLevels m₂
  := by
  obtain ⟨new, hnew, hle⟩ := h.noted
  obtain ⟨new₁, hnew₁, hle₁⟩ := h₁.noted
  refine ⟨h₁.depth.trans h.depth, new₁ ++ new, ?_, ?_⟩
  · rw [hnew₁, hnew]
    cases m.stage.depths with
    | none => rfl
    | some ds => exact congrArg some (List.append_assoc new₁ new ds).symm
  · intro d hd
    rcases List.mem_append.1 hd with hd | hd
    · rw [← h.depth]
      exact hle₁ d hd
    · exact hle d hd

namespace Regime

/-- The regime in which no level is opened inside of another one. -/
def oneLevel (N : Symbol → Prop) : Regime :=
  ofStock (.withoutLevels N) N (∀ x, ·.Mentions x → N x) True Machine.KeepsLevels

/-- Where no level is opened inside of another one, the computations of a level keep the
levels. -/
theorem oneLevel_drains {N : Symbol → Prop} (h : (oneLevel N).Drains m m') :
  m.KeepsLevels m'
  := h.keeps Machine.KeepsLevels.trans Machine.KeepsLevels.level

/-- Where no level is opened inside of another one, computations keep the levels. -/
theorem oneLevel_keeping (N : Symbol → Prop) :
  (oneLevel N).Keeping
  where
  refl m := .of_eq rfl rfl
  trans := .trans
  inert h := .of_eq (by rw [h.levels]) h.depths
  noted := by
    intro m _ _ _
    refine ⟨rfl, [m.levels.length], rfl, ?_⟩
    intro d hd
    obtain rfl := List.mem_singleton.1 hd
    exact Nat.le_max_right _ _
  enqueued hl _ := .level hl
  counted _ hl := .level hl
  entering h := ⟨h.depth, h.noted⟩
  outside := by
    intro m m' h
    obtain ⟨new, hnew, hle⟩ := h.noted
    refine ⟨rfl, new, hnew, fun d hd => ?_⟩
    exact Nat.le_trans (hle d hd) (Nat.le_max_left _ _)
  bounce := by
    rintro m m' (hl | h) hdrains
    · have hk := oneLevel_drains hdrains
      obtain ⟨new, hnew, hle⟩ := hk.noted
      have hdepth := hk.depth
      refine ⟨?_, new, hnew, ?_⟩
      · change m'.levels.tail.length = _
        rw [List.length_tail, hdepth]
        rfl
      · rw [hl] at hle ⊢
        exact hle
    · exact h.elim
  push _ _ _ := .of_eq rfl rfl
  pop _ _ _ _ _ := .of_eq rfl rfl

/-- The regime in which no level is opened inside of another one is lawful. -/
theorem oneLevel_lawful (N : Symbol → Prop) :
  (oneLevel N).Lawful
  where
  toClosed := ofStock_closed _ _ _ _ fun _ _ _ => trivial
  toKeeping := oneLevel_keeping N
  held _ := .builtin trivial
  var h := h _ .var
  lambda h x hx := h x (.body hx)

/-- Where no level is opened inside of another one, calls keep the levels. -/
theorem oneLevel_call (N : Symbol → Prop) (fuel : Nat) :
  Call.Keeps (oneLevel N) (Value.call fuel)
  := by
  apply Value.call_keeps (oneLevel_lawful N)
  · exact fun _ h => .inl fun _ hc x hx => h x (.child hc hx)
  · exact fun _ h => h

end Regime

/-- A coroutine that is started runs in one level, where nothing that it can come to opens a
level of its own: names are looked up with no more than one level around those that were
active before, whatever the coroutine awaits and however often it does. -/
theorem run_levels_bounded {N : Symbol → Prop} (hm : m.Holds N (Value.MadeOf (.withoutLevels N)))
    (hcoroutine : coroutine.MadeOf (.withoutLevels N))
    (hresolve : resolve.MadeOf (.withoutLevels N)) (hreject : reject.MadeOf (.withoutLevels N))
    (h : (Value.native (.primitive (.coroutine .run))).CallEnds [coroutine, resolve, reject] m r
      m') :
  m'.levels.length = m.levels.length ∧
  ∃ new, m'.stage.depths = m.stage.depths.map (new ++ ·) ∧ ∀ d ∈ new, d ≤ m.levels.length + 1
  := by
  have hR := Regime.oneLevel_lawful N
  rcases run_level h with rfl | ⟨c, result, m₁, hlevel, rfl⟩
  · obtain ⟨new, hnew, hle⟩ := (hR.refl m').noted
    refine ⟨rfl, new, hnew, fun d hd => ?_⟩
    have := hle d hd
    omega
  · have hlaunched : m.launched.Obeys (.oneLevel N) := { hm with
      levels := List.forall_mem_cons.2 ⟨fun _ h => absurd h List.not_mem_nil, hm.levels⟩ }
    have hsuccess : (m.successFor resolve).MadeOf (.withoutLevels N) := .settle hresolve
    have hfailure : (m.failureFor reject).MadeOf (.withoutLevels N) := .settle hreject
    have hstart := startWith_keeps hR (Regime.oneLevel_call N c) m.nextExecution hcoroutine hsuccess
      hfailure
    obtain ⟨-, -, hdrains⟩ :=
      (inLevel_keeps hR (Regime.oneLevel_call N c) c hstart).gives hlaunched hlevel
    have hk := Regime.oneLevel_drains hdrains
    obtain ⟨new, hnew, hle⟩ := hk.noted
    have hdepth : m₁.levels.length = m.levels.length + 1 := hk.depth
    refine ⟨?_, new, hnew, fun d hd => ?_⟩
    · change m₁.levels.tail.length = _
      rw [List.length_tail, hdepth, Nat.add_sub_cancel]
    · have : d ≤ max 1 (m.levels.length + 1) := hle d hd
      omega

/-! ### A loop around an awaited call -/

/-- Whether a tree mentions only some names, as far as this can be told in some depth. -/
def Expr.mentionsOnly (N : Symbol → Bool) : Nat → Expr → Bool
  | 0, _ => false
  | _ + 1, .var x => N x
  | n + 1, .lambda _ _ body => mentionsOnly N n body
  | n + 1, e => e.children.all (mentionsOnly N n)

/-- A tree that is said to mention only some names mentions no others. -/
theorem Expr.Mentions.of_mentionsOnly {N : Symbol → Bool} {e : Expr} {x : Symbol} {n : Nat}
    (hx : e.Mentions x) (h : e.mentionsOnly N n = true) :
  N x = true
  := by
  induction hx generalizing n with
  | var =>
    cases n with
    | zero => cases h
    | succ n => exact h
  | @child c e hc _ ih =>
    cases n with
    | zero => cases h
    | succ n =>
      have hall : e.children.all (mentionsOnly N n) = true := by
        cases e with
        | var => cases hc
        | lambda => cases hc
        | _ => exact h
      exact ih (List.all_eq_true.1 hall c hc)
  | body _ ih =>
    cases n with
    | zero => cases h
    | succ n => exact ih h

section repeating

/-- The names that do not stand for functions that open levels. -/
def staysInLevel (x : Symbol) : Bool := x != "run" && x != "unwind"

/-- The machine of a loop whose operation delivers at once. -/
def repeating : Machine :=
  { Machine.empty with
    globals := [
      ("run", .native (.primitive (.coroutine .run))),
      ("op", .native (.instrument 0 .operation)),
      ("<", .native (.primitive (.comparison .less))),
      ("inc", .native (.primitive (.arithmetic .increment)))]
    nextId := 1
    stage := { Stage.empty with depths := some [] } }

/-- A loop that awaits the operation four times. -/
def repeatedAwait : Expr :=
  .loop [("i", .literal (.scalar (.int 0)))]
    (.seq [.call (.var "await") [.var "op"],
      .cond (.call (.var "<") [.var "i", .literal (.scalar (.int 3))])
        (.recur [.call (.var "inc") [.var "i"]]) (.var "i")])

/-- The names of the tree. -/
def repeatedNames : SymbolTable := ⟨#["op", "<", "inc", "i"], 0⟩

/-- The parameters and the code of a body that can be compiled to a function literal. -/
def compiled? (body : Expr) (t : SymbolTable) : Option (List Symbol × Expr) :=
  match Coroutine.compile Table.default body t with
  | .ok (.lambda none params code) _ => some (params, code)
  | _ => none

/-- What the parameters and the code are those of. -/
theorem compiled?_eq_some {body code : Expr} {params : List Symbol} {t : SymbolTable}
    (h : compiled? body t = some (params, code)) :
  ∃ t', Coroutine.compile Table.default body t = .ok (.lambda none params code) t'
  := by
  unfold compiled? at h
  split at h
  · rename_i hcompile
    cases h
    exact ⟨_, hcompile⟩
  · cases h

/-- The machine that starting a coroutine leaves, when there is enough fuel. -/
def ran? (coroutine : Value) (fuel : Nat) (m : Machine) : Option Machine :=
  match Value.call fuel (.native (.primitive (.coroutine .run)))
      [coroutine, receiver .completed, receiver .failed] m with
  | .ok _ m' => some m'
  | .error _ _ => none

/-- What the machine is left by. -/
theorem ran?_eq_some {fuel : Nat} (h : ran? coroutine fuel m = some m') :
  ∃ v, (Value.native (.primitive (.coroutine .run))).CallEnds
    [coroutine, receiver .completed, receiver .failed] m (.ok v) m'
  := by
  unfold ran? at h
  split at h
  · rename_i v _ hcall
    cases h
    exact ⟨v, Value.callEnds_of_gives fuel hcall⟩
  · cases h

/-- Nothing that the loop can come to opens a level. -/
theorem repeating_holds :
  repeating.Holds (staysInLevel · = true) (Value.MadeOf (.withoutLevels (staysInLevel · = true)))
  where
  globals := by
    unfold repeating
    dsimp only
    refine List.forall_mem_cons.2 ⟨fun hrun => absurd hrun (by decide +kernel), ?_⟩
    refine List.forall_mem_cons.2 ⟨fun _ => .instrument fun h => Bool.noConfusion h, ?_⟩
    refine List.forall_mem_cons.2 ⟨fun _ => .primitive ⟨nofun, nofun⟩, ?_⟩
    exact List.forall_mem_singleton.2 fun _ => .primitive ⟨nofun, nofun⟩
  atoms _ h := absurd h (Array.not_mem_empty _)
  context _ h := absurd h List.not_mem_nil
  levels _ h := absurd h List.not_mem_nil
  timers _ h := absurd h List.not_mem_nil
  deliveries _ := .ok (.scalar _)
  pending _ h := absurd h List.not_mem_nil

/-- The eleven names that the loop looks up in its four turns are looked up in one level. -/
theorem repeatedAwait_levels_bounded :
  ∃ params code t' v m' depths,
    Coroutine.compile Table.default repeatedAwait repeatedNames =
      .ok (.lambda none params code) t' ∧
    (Value.native (.primitive (.coroutine .run))).CallEnds
      [.closure 0 none params code [], receiver .completed, receiver .failed] repeating (.ok v)
      m' ∧
    m'.stage.depths = some depths ∧ depths.length = 11 ∧ ∀ d ∈ depths, d ≤ 1
  := by
  have hcheck : (compiled? repeatedAwait repeatedNames).map (fun lambda =>
      (lambda.2.mentionsOnly staysInLevel 30,
        (ran? (.closure 0 none lambda.1 lambda.2 []) 60 repeating).map
          (·.stage.depths.map List.length))) = some (true, some (some 11)) := by decide +kernel
  obtain ⟨⟨params, code⟩, hcompiled, hcheck⟩ := Option.map_eq_some_iff.1 hcheck
  obtain ⟨hnames, hran⟩ := Prod.mk.inj hcheck
  obtain ⟨m', hran, hlength⟩ := Option.map_eq_some_iff.1 hran
  obtain ⟨t', hcompile⟩ := compiled?_eq_some hcompiled
  obtain ⟨v, hends⟩ := ran?_eq_some hran
  obtain ⟨depths, hdepths, hlength⟩ := Option.map_eq_some_iff.1 hlength
  have hcode : ∀ x, code.Mentions x → staysInLevel x = true := fun x hx =>
    hx.of_mentionsOnly hnames
  obtain ⟨-, new, hnew, hle⟩ := run_levels_bounded repeating_holds
    (.closure hcode fun _ h => absurd h List.not_mem_nil)
    (.instrument fun h => Bool.noConfusion h) (.instrument fun h => Bool.noConfusion h) hends
  have hnew' : m'.stage.depths = some new := by
    rw [hnew]
    exact congrArg some (List.append_nil new)
  obtain rfl := Option.some.inj (hdepths.symm.trans hnew')
  exact ⟨params, code, t', v, m', depths, hcompile, hends, hdepths, hlength, hle⟩

end repeating

end Skein
