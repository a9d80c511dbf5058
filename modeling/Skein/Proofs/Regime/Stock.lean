import Skein.Proofs.Regime.Eval

/-!
# Values that are made of something

The values that are made of some native functions and of some trees form the values of a
regime: whatever else they contain has been put together from these.
-/

namespace Skein

/-- What values may be made of. -/
structure Stock where
  builtin : Builtin → Prop
  primitive : Primitive → Prop
  /-- The bodies of function literals. -/
  body : Expr → Prop
  /-- Whether functions may be among them that open levels of the trampoline. -/
  nests : Prop
  run : primitive (.coroutine .run) → nests
  unwind : primitive (.coroutine .unwind) → nests

/-- A value is made of what is in stock. -/
inductive Value.MadeOf (S : Stock) : Value → Prop where
  | scalar (s : Scalar) : MadeOf S (.scalar s)
  | list {vs : List Value} (h : ∀ v ∈ vs, MadeOf S v) : MadeOf S (.list vs)
  | vector {vs : List Value} (h : ∀ v ∈ vs, MadeOf S v) : MadeOf S (.vector vs)
  | closure {id : Nat} {name : Option Symbol} {params : List Symbol} {body : Expr}
    {env : List (Symbol × Value)} (hbody : S.body body) (henv : ∀ b ∈ env, MadeOf S b.2) :
    MadeOf S (.closure id name params body env)
  | builtin {b : Builtin} (h : S.builtin b) : MadeOf S (.native (.builtin b))
  | primitive {p : Primitive} (h : S.primitive p) : MadeOf S (.native (.primitive p))
  | sentinel (op : Symbol) : MadeOf S (.native (.sentinel op))
  | awaitContinuation {id : Nat} {c : Context Value} {k : Value}
    (hc : ∀ f ∈ c.frames, ∀ b ∈ f.bindings, MadeOf S b.2) (hk : MadeOf S k) :
    MadeOf S (.native (.awaitContinuation id c k))
  | awaitFailure {id : Nat} {c : Context Value} {k : Value}
    (hc : ∀ f ∈ c.frames, ∀ b ∈ f.bindings, MadeOf S b.2) (hk : MadeOf S k) :
    MadeOf S (.native (.awaitFailure id c k))
  | settle {id execution : Nat} {outcome : Outcome} {target : Value} (h : MadeOf S target) :
    MadeOf S (.native (.settle id execution outcome target))
  | inContext {id : Nat} {c : Context Value} {f : Value}
    (hc : ∀ f ∈ c.frames, ∀ b ∈ f.bindings, MadeOf S b.2) (hf : MadeOf S f) :
    MadeOf S (.native (.inContext id c f))
  | timer (op : TimerOp) : MadeOf S (.native (.timer op))
  | instrument {id : Nat} {i : Instrument} (h : i.isScript = true → S.nests) :
    MadeOf S (.native (.instrument id i))
  | condition {c : Condition Value} (h : MadeOf S c.data) : MadeOf S (.condition c)
  | thunk {id : Nat} {f : Value} (h : MadeOf S f) : MadeOf S (.thunk id f)
  | atom (location : Nat) : MadeOf S (.atom location)
  | execution (id : Nat) : MadeOf S (.execution id)

namespace Regime

/-- The regime in which values are made of what is in stock. -/
def ofStock (S : Stock) (names : Symbol → Prop) (code : Expr → Prop) (frames : Prop)
    (keeps : Machine → Machine → Prop) (faults : String → Prop := fun _ => True) : Regime where
  names
  value := Value.MadeOf S
  code
  body := S.body
  keeps
  nests := S.nests
  frames
  faults

/-- Values are made of what is in stock when their parts are. -/
theorem ofStock_closed (S : Stock) (names : Symbol → Prop) (code : Expr → Prop) {frames : Prop}
    (keeps : Machine → Machine → Prop) {faults : String → Prop}
    (hmoves : ∀ b, S.builtin b → b.movesFrames = true → frames) :
  (ofStock S names code frames keeps faults).Closed
  where
  scalar := .scalar
  list_iff := ⟨fun h => by cases h with | list h => exact h, .list⟩
  vector_iff := ⟨fun h => by cases h with | vector h => exact h, .vector⟩
  closure_iff := ⟨fun h => by cases h with | closure hbody henv => exact ⟨hbody, henv⟩,
    fun h => .closure h.1 h.2⟩
  awaitContinuation_iff := ⟨fun h => by cases h with | awaitContinuation hc hk => exact ⟨hc, hk⟩,
    fun h => .awaitContinuation h.1 h.2⟩
  awaitFailure_iff := ⟨fun h => by cases h with | awaitFailure hc hk => exact ⟨hc, hk⟩,
    fun h => .awaitFailure h.1 h.2⟩
  settle_iff := ⟨fun h => by cases h with | settle h => exact h, .settle⟩
  inContext_iff := ⟨fun h => by cases h with | inContext hc hf => exact ⟨hc, hf⟩,
    fun h => .inContext h.1 h.2⟩
  instrument _ _ h := .instrument fun hscript => absurd (h.symm.trans hscript) Bool.false_ne_true
  script_iff := ⟨fun h => by cases h with | instrument h => exact h rfl,
    fun h => .instrument fun _ => h⟩
  condition_iff := ⟨fun h => by cases h with | condition h => exact h, .condition⟩
  thunk_iff := ⟨fun h => by cases h with | thunk h => exact h, .thunk⟩
  atom := .atom
  execution := .execution
  run h := by cases h with | primitive h => exact S.run h
  unwind h := by cases h with | primitive h => exact S.unwind h
  builtin h hb := by cases h with | builtin h => exact hmoves _ h hb

end Regime

end Skein
