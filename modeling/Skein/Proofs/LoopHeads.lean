import Skein.Proofs.Derivation.Heads
import Skein.Proofs.Derivation.Lowering
import Skein.Proofs.Simulation.Loops

/-!
# Loops are entered anew from thunks

A lowered loop is entered once, by a call of its head with the names that the loop binds.  It is
entered anew only when a thunk takes its step: the thunk is a call of the head whose arguments
are literals or bound names, so that nothing is evaluated for them after the thunk has been
made.
-/

namespace Skein.Coroutine

/-- A ready value is the same whenever it is evaluated, and to evaluate it has no effects. -/
theorem Ready.ends {env : Env} {e : Expr} (h : Ready (env.map (·.1)) e) (outer : Env) :
  ∃ v, ∀ m, e.Ends (env ++ outer) m (.ok v) m
  := by
  cases h with
  | literal d => exact ⟨_, fun m => Expr.ends_literal d⟩
  | builtin b => exact ⟨_, fun m => Expr.ends_builtin b⟩
  | @var x hx =>
    have hsome : (List.lookup x (env ++ outer)).isSome = true := isSome_lookup_append (.inl hx)
    obtain ⟨v, hv⟩ := Option.isSome_iff_exists.1 hsome
    exact ⟨v, fun m => Expr.ends_var hv⟩

/-- Ready values are the same whenever they are evaluated, and to evaluate them has no effects. -/
theorem Ready.allEnd {env : Env} {es : List Expr} (h : ∀ e ∈ es, Ready (env.map (·.1)) e)
    (outer : Env) :
  ∃ vs, ∀ m, Expr.AllEnd (env ++ outer) es m (.ok vs) m
  := by
  induction es with
  | nil => exact ⟨[], fun m => .nil⟩
  | cons e es ih =>
    obtain ⟨he, hes⟩ := List.forall_mem_cons.1 h
    obtain ⟨v, hv⟩ := he.ends outer
    obtain ⟨vs, hvs⟩ := ih hes
    exact ⟨v :: vs, fun m => .cons (hv m) (hvs m)⟩

/-- The heads of lowered loops are entered anew from thunks.  Every head that is minted is that
of a loop of the body, and the code binds it to a function of the names of the loop.  When it is
not found in the body, as when all names of the body are in the table, the code calls it once
with these names, and otherwise refers to it only in calls that are the bodies of thunks, with
as many ready arguments.  There the code makes a thunk and does nothing else, and whenever the
thunk takes its step, the arguments have the values that they had when it was made. -/
theorem heads_reentered_from_thunks {body code : Expr} {t t' : SymbolTable}
    (h : compile Table.default body t = .ok code t') :
  ∃ ms ns, Compiles Table.default body code ms ns ∧
    t'.names.toList = t.names.toList ++ ns.map (·.symbol) ∧
    ∀ x params, .head x params ∈ ns →
      (∃ bs e Γ, (Expr.loop bs e).LiesIn Γ body ∧ params = bs.map (·.1)) ∧
      (∃ inner start Γ,
        (Expr.bind [(x, .lambda (some x) params inner)] start).LiesIn Γ code) ∧
      (body.Over (· ∈ t.names) → ¬ body.Contains x) ∧
      (¬ body.Contains x → Entered x params [] 1 code) ∧
      ∀ (values : List Expr) (env outer : Env), (∀ v ∈ values, Ready (env.map (·.1)) v) →
        (∀ m, (reentryCall x values).Ends (env ++ outer) m
          (.ok (.thunk (m.nextId + 1)
            (.closure m.nextId none [] (.call (.var x) values) (env ++ outer))))
          { m with nextId := m.nextId + 2 }) ∧
        ∃ vs, ∀ m, Expr.AllEnd (env ++ outer) values m (.ok vs) m
  := by
  obtain ⟨ns, hns, ms, hms⟩ := compile_compiles Table.default body t code t' h
  refine ⟨ms, ns, hms, hns.names, fun x params hmem => ?_⟩
  obtain ⟨m, hm, hact⟩ := hms.headed x params hmem
  obtain ⟨hsource, -, hsound⟩ := hms.sound (N := (· ∉ t.names)) hns.new hns.nodup m hm
  have hplaces : MarksIn (· ≠ .copy) ms code := hms.marksIn fun hcopy => absurd rfl hcopy
  have hplace := hplaces m hm (by rw [hact]; nofun)
  rw [hact] at hsound
  obtain ⟨⟨bs, e, hloop, hparams⟩, inner, start, hcode⟩ := hsound
  rw [hloop] at hsource
  rw [hcode] at hplace
  refine ⟨⟨bs, e, _, hsource, hparams⟩, ⟨inner, start, _, hplace⟩,
    fun hover hfound => hns.new _ hmem (hover x hfound), fun hx => ?_,
    fun values env outer hready => ⟨fun m => ends_thunk _ m, Ready.allEnd hready outer⟩⟩
  have hunique : ∀ n ∈ ns, n.symbol = x → n = .head x params := fun n hn hsymbol =>
    List.inj_on_of_nodup_map hns.nodup hn hmem hsymbol
  have hentered := hms.entered hx hunique
  rwa [List.count_eq_one_of_mem (List.Nodup.of_map _ hns.nodup) hmem] at hentered

/-- A loop that suspends and then goes on with another value. -/
def countdown : Expr :=
  .loop [("n", .literal (.scalar (.int 3)))]
    (.cond (.call (.var "await") [.var "op", .var "n"]) (.recur [.call (.var "dec") [.var "n"]])
      (.var "n"))

/-- The loop is entered anew from thunks. -/
theorem countdown_reentered_from_thunks :
  ∃ code t', compile Table.default countdown
      (SymbolTable.empty.insertAll ["await", "op", "n", "dec"]) = .ok code t' ∧
    ∃ x, x ∈ t'.names ∧ Entered x ["n"] [] 1 code
  := by
  have hcompiles : ((compile Table.default countdown).run'
      (SymbolTable.empty.insertAll ["await", "op", "n", "dec"])).isSome = true := by decide +kernel
  have hover : countdown.Over
      (· ∈ (SymbolTable.empty.insertAll ["await", "op", "n", "dec"]).names) := by decide +kernel
  have hneeds : ∀ success failure,
      needsLowering Table.default (.ofContinuations success failure) countdown = true := by
    intro success failure
    change (countdown.reaches Table.default.has || false) = true
    decide +kernel
  obtain ⟨code, t', hcode⟩ := Compiling.exists_eq_ok hcompiles
  obtain ⟨ms, ns, hms, hnames, hheads⟩ := heads_reentered_from_thunks hcode
  have hhead : ∃ x, .head x ["n"] ∈ ns := by
    cases hms with
    | mk success failure h =>
      cases h with
      | copied hn => exact absurd (hneeds success failure) (Bool.eq_false_iff.1 hn)
      | loop x _ _ _ _ =>
        exact ⟨x, List.mem_cons_of_mem _ (List.mem_cons_of_mem _ List.mem_cons_self)⟩
  obtain ⟨x, hx⟩ := hhead
  obtain ⟨-, -, hnew, hentered, -⟩ := hheads x ["n"] hx
  refine ⟨code, t', hcode, x, ?_, hentered (hnew hover)⟩
  rw [← Array.mem_toList_iff, hnames]
  exact List.mem_append_right _ (List.mem_map_of_mem (f := Mint.symbol) hx)

end Skein.Coroutine
