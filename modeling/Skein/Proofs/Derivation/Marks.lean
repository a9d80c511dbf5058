import Skein.Proofs.Derivation

/-!
# Marks lie in the code

A derivation records what is put at a place of the code together with the names that are bound
around that place.  Here it is shown that the record is right: what is marked lies in the code
where the mark says.  A copy that is handed to a handler lies in the code only when the handler
uses it, in the scope of the call.

Code that uses the values of some trees lies inside of the code that evaluates these trees, and
only minted names are bound between the two.
-/

namespace Skein.Coroutine

open Expr (placedBindings)

variable {table : Table} {c d body code : Expr} {bs : List (Symbol × Expr)}
  {Γ Δ : List Symbol} {s : Scope} {e x k failure : Symbol} {P : Act → Prop}

/-! ### Places in the code that is made -/

/-- The body of a guarded body. -/
theorem liesIn_guardedBy :
  body.LiesIn [] (guardedBy e body failure)
  := Expr.liesIn_of_mem_placed List.mem_cons_self

/-- The body of a continuation. -/
theorem liesIn_continuation :
  body.LiesIn [x] (continuation x e body failure)
  := (@liesIn_guardedBy body e failure).trans (@Expr.liesIn_lambda _ none [x])

/-- The body of the head of a loop. -/
theorem liesIn_head {names : List Symbol} :
  body.LiesIn (names.reverse ++ [x]) (.lambda (some x) names (guardedBy e body failure))
  := (@liesIn_guardedBy body e failure).trans (@Expr.liesIn_lambda _ (some x) names)

/-- What is sent to a continuation. -/
theorem liesIn_send :
  c.LiesIn [] (.send k c)
  := Expr.liesIn_of_placed rfl (List.mem_cons_of_mem _ List.mem_cons_self)

/-- A clause that can be selected. -/
theorem liesIn_selection {clauses : List (Clause Expr)} {clause : Clause Expr}
    (h : clause ∈ clauses) :
  clause.body.LiesIn [clause.var] (selection e clauses)
  := by
  have hclause : clause.body.LiesIn [clause.var] (.protect (raising (.var e)) clauses none) := by
    apply Expr.liesIn_of_mem_placed
    exact List.mem_cons_of_mem _ (List.mem_append_left _ (List.mem_map.2 ⟨clause, h, rfl⟩))
  exact hclause.trans (Expr.liesIn_of_placed rfl List.mem_cons_self)

/-- A value that a loop is entered anew with. -/
theorem liesIn_reentryCall {values : List Expr} (h : c ∈ values) :
  c.LiesIn [] (reentryCall k values)
  := by
  have henter : c.LiesIn [] (.call (.var k) values) :=
    Expr.liesIn_of_placed rfl (List.mem_cons_of_mem _ h)
  have hthunk : Expr.LiesIn [] (.lambda none [] (.call (.var k) values)) (reentryCall k values) :=
    Expr.liesIn_of_placed rfl (List.mem_cons_of_mem _ List.mem_cons_self)
  exact henter.trans (Expr.liesIn_function.trans hthunk)

/-! ### Marks in some code -/

/-- What is marked, as far as it is of some kind, lies in some code. -/
def MarksIn (P : Act → Prop) (ms : List Mark) (code : Expr) : Prop :=
  ∀ m ∈ ms, P m.act → m.code.LiesIn m.around code

namespace MarksIn

variable {ms ms' : List Mark}

/-- More marks. -/
theorem append (h : MarksIn P ms code) (h' : MarksIn P ms' code) :
  MarksIn P (ms ++ ms') code
  := List.forall_mem_append.2 ⟨h, h'⟩

/-- Marks in a part of the code. -/
theorem under (h : MarksIn P ms c) (hc : c.LiesIn Δ code) :
  MarksIn P (under Δ ms) code
  := by
  intro m hm hP
  obtain ⟨m', hm', rfl⟩ := List.mem_map.1 hm
  exact (h m' hm' hP).trans hc

/-- Marks in a part of the code around which no names are bound. -/
theorem inside (h : MarksIn P ms c) (hc : c.LiesIn [] code) :
  MarksIn P ms code
  := by
  intro m hm hP
  have := (h m hm hP).trans hc
  rwa [List.append_nil] at this

/-- A copy. -/
theorem copied (hc : c.LiesIn [] code) :
  MarksIn P [.copied Γ c] code
  := List.forall_mem_singleton.2 fun _ => hc

/-- Copies of the initial values of bindings. -/
theorem copiedBindings :
  MarksIn P (copiedBindings Γ bs) (.binding bs code)
  := by
  intro m hm _
  obtain ⟨p, hp, rfl⟩ := List.mem_map.1 hm
  exact Expr.liesIn_binding_of_mem hp

/-- Copies of trees in a sequence. -/
theorem copiedAll {es ds : List Expr} :
  MarksIn P (es.map (.copied Γ)) (.block (es ++ ds))
  := by
  intro m hm _
  obtain ⟨e, he, rfl⟩ := List.mem_map.1 hm
  exact Expr.liesIn_block (List.mem_append_left _ he)

/-- The copy of a tree whose value some code uses. -/
theorem copy {v : Operand} (h : v.code.LiesIn [] code) :
  MarksIn P (v.copies Γ) code
  := by
  cases v with
  | tree e => exact copied h
  | minted x => exact List.forall_mem_nil _

/-- Copies of the trees whose values some code uses. -/
theorem copies {vs : List Operand} (h : ∀ c ∈ vs.map (·.code), c.LiesIn [] code) :
  MarksIn P (vs.flatMap (·.copies Γ)) code
  := by
  intro m hm
  obtain ⟨v, hv, hm⟩ := List.mem_flatMap.1 hm
  exact copy (h v.code (List.mem_map_of_mem hv)) m hm

end MarksIn

/-- The handlers of a table use their arguments in the scope of the call. -/
def Table.UsesArgs (table : Table) : Prop :=
  ∀ f op handler, calledHandler? table f = some (op, handler) →
    ∀ site args made, handler site args = .ok made → ∀ a ∈ args, a.LiesIn [] made

/-- What is marked lies in what something has been lowered to. -/
def Output.Holds (P : Act → Prop) (ms : List Mark) : Output → Prop
  | .code c => MarksIn P ms c
  | .landing l => ∀ m ∈ ms, P m.act →
    ∃ p ∈ placedBindings [] l.bindings, ∃ Γ, m.code.LiesIn Γ p.2 ∧ m.around = Γ ++ p.1
  | .clauses cs => ∀ m ∈ ms, P m.act →
    ∃ clause ∈ cs, ∃ Γ, m.code.LiesIn Γ clause.body ∧ m.around = Γ ++ [clause.var]

/-- What has been marked before lies where it is to lie. -/
def Job.Holds (P : Act → Prop) : Job → Prop
  | .receive _ _ _ _ _ code ms => MarksIn P ms code
  | .inOrder _ _ _ _ finish => MarksIn P finish.marks finish.code
  | _ => True

/-- Marks in bindings that come first. -/
theorem MarksIn.landing {landing : Landing} {ms : List Mark}
    (h : (Output.landing landing).Holds P ms) :
  MarksIn P ms (.binding (landing.bindings ++ bs) code)
  := by
  intro m hm hP
  obtain ⟨p, hp, Γ, hΓ, haround⟩ := h m hm hP
  rw [haround]
  apply hΓ.trans (Expr.liesIn_binding_of_mem _)
  rw [Expr.placedBindings_concat]
  exact List.mem_append_left _ hp

/-- Marks in bindings that come after others. -/
theorem MarksIn.landing_after {landing : Landing} {ms : List Mark}
    (h : (Output.landing landing).Holds P ms) :
  MarksIn P (Coroutine.under (bs.map (·.1)).reverse ms) (.binding (bs ++ landing.bindings) code)
  := by
  intro m hm hP
  obtain ⟨m', hm', rfl⟩ := List.mem_map.1 hm
  obtain ⟨p, hp, Γ, hΓ, haround⟩ := h m' hm' hP
  have hplaced : p.2.LiesIn (p.1 ++ (bs.map (·.1)).reverse)
      (.binding (bs ++ landing.bindings) code) := by
    apply Expr.liesIn_binding_of_mem
    have hafter := Expr.placedBindings_append [] (bs.map (·.1)).reverse landing.bindings
    rw [List.nil_append] at hafter
    rw [Expr.placedBindings_concat, List.append_nil, hafter]
    exact List.mem_append_right _ (List.mem_map.2 ⟨p, hp, rfl⟩)
  have := hΓ.trans hplaced
  rwa [← List.append_assoc, ← haround] at this

/-- The values that a loop is entered anew with lie where they are bound or where they are
used. -/
theorem Fixes.marksIn {vs : List Operand} {temps : List (Symbol × Expr)} {values : List Expr}
    {ms : List Mark} {ns : List Mint} (h : Fixes Γ s vs temps values ms ns) {head : Symbol} :
  MarksIn P ms (.binding temps (reentryCall head values))
  := by
  have hplaces : ∀ m ∈ ms, (m.around, m.code) ∈ placedBindings [] temps ∨
      m.around = (temps.map (·.1)).reverse ∧ m.code ∈ values := by
    induction h with
    | nil => exact List.forall_mem_nil _
    | @kept v vs temps values ms ns _ _ ih =>
      refine List.forall_mem_append.2 ⟨?_, fun m hm => ?_⟩
      · intro m hm
        obtain ⟨m', hm', rfl⟩ := List.mem_map.1 hm
        cases v with
        | tree e =>
          obtain rfl := List.mem_singleton.1 hm'
          exact .inr ⟨rfl, List.mem_cons_self⟩
        | minted x => cases hm'
      · exact (ih m hm).imp id fun ⟨haround, hvalue⟩ => ⟨haround, List.mem_cons_of_mem _ hvalue⟩
    | @named v vs temps values ms ns t _ _ ih =>
      have hafter := Expr.placedBindings_append [] [t] temps
      rw [List.nil_append] at hafter
      refine List.forall_mem_append.2 ⟨?_, ?_⟩
      · intro m hm
        cases v with
        | tree e =>
          obtain rfl := List.mem_singleton.1 hm
          exact .inl List.mem_cons_self
        | minted x => cases hm
      · intro m hm
        obtain ⟨m', hm', rfl⟩ := List.mem_map.1 hm
        rcases ih m' hm' with hplaced | ⟨haround, hvalue⟩
        · refine .inl (List.mem_cons_of_mem _ ?_)
          rw [hafter]
          exact List.mem_map.2 ⟨_, hplaced, rfl⟩
        · refine .inr ⟨?_, List.mem_cons_of_mem _ hvalue⟩
          rw [List.map_cons, List.reverse_cons, haround]
  intro m hm _
  rcases hplaces m hm with hplaced | ⟨haround, hvalue⟩
  · exact Expr.liesIn_binding_of_mem hplaced
  · rw [haround]
    exact (liesIn_reentryCall hvalue).trans Expr.liesIn_binding

/-- What a derivation marks lies in the code. -/
theorem Derives.holds {job : Job} {out : Output} {ms : List Mark} {ns : List Mint}
    (h : Derives table job out ms ns) (hcopy : P .copy → table.UsesArgs) (hjob : job.Holds P) :
  out.Holds P ms
  := by
  induction h with
  | copied => exact MarksIn.copied liesIn_send
  | @ask Γ s s' f args op handler vs made code ms ns hhandler hmade _ ih =>
    apply ih
    refine List.forall_mem_cons.2 ⟨fun _ => .refl _, fun m hm hP => ?_⟩
    have hact : m.act = .copy := by
      obtain ⟨v, -, hm⟩ := List.mem_flatMap.1 hm
      cases v with
      | tree e => exact congrArg Mark.act (List.mem_singleton.1 hm)
      | minted x => cases hm
    have huses := hcopy (hact ▸ hP) f op handler hhandler _ _ _ hmade
    exact MarksIn.copies huses m hm hP
  | call _ _ _ ih =>
    apply ih
    refine MarksIn.copies fun c hc => ?_
    rw [List.map_cons] at hc
    exact (Expr.liesIn_of_placed rfl hc).trans liesIn_send
  | cond _ _ _ _ ihyes ihno ih =>
    apply ih
    refine MarksIn.append (.copy ?_) (.append ?_ ?_)
    · exact Expr.liesIn_of_placed rfl List.mem_cons_self
    · exact (ihyes trivial).inside
        (Expr.liesIn_of_placed rfl (List.mem_cons_of_mem _ List.mem_cons_self))
    · exact (ihno trivial).inside (Expr.liesIn_of_placed rfl
        (List.mem_cons_of_mem _ (List.mem_cons_of_mem _ List.mem_cons_self)))
  | seq _ _ ih => exact ih trivial
  | bind _ _ ih => exact ih trivial
  | loop x e _ _ _ ihbody ihstart =>
    refine List.forall_mem_cons.2 ⟨fun _ => .refl _, MarksIn.append ?_ ?_⟩
    · exact ((ihbody trivial).under liesIn_head).inside Expr.value_liesIn_binding
    · exact (ihstart trivial).under Expr.body_liesIn_binding
  | recur _ _ hfixes _ ih =>
    apply ih
    refine MarksIn.append (fun m hm _ => ?_) hfixes.marksIn
    obtain ⟨v, -, rfl⟩ := List.mem_map.1 hm
    exact .refl _
  | define _ _ ih =>
    apply ih
    exact .copy ((Expr.liesIn_of_placed rfl List.mem_cons_self).trans liesIn_send)
  | plain _ _ ih => exact ih trivial
  | protect e _ _ _ _ ihlast ihfirst ihbody =>
    refine MarksIn.append (.landing (ihlast trivial)) (.append ?_ ?_)
    · exact .landing_after (ihfirst trivial)
    · exact ((ihbody trivial).inside liesIn_guardedBy).under Expr.liesIn_binding
  | receive k x err _ _ ih =>
    refine MarksIn.append ?_ ((ih trivial).under Expr.body_liesIn_binding)
    exact (hjob.under liesIn_continuation).inside Expr.value_liesIn_binding
  | finish => exact hjob
  | suspended v k _ _ ihrest ih => exact ih (ihrest hjob)
  | kept _ _ _ _ ih => exact List.forall_mem_cons.2 ⟨fun _ => .refl _, ih hjob⟩
  | named t _ _ _ _ ih =>
    exact List.forall_mem_cons.2
      ⟨fun _ => Expr.value_liesIn_binding, (ih hjob).under Expr.body_liesIn_binding⟩
  | sequence => exact MarksIn.copiedAll.inside liesIn_send
  | sequenceLast _ _ _ ih =>
    refine MarksIn.append .copiedAll ((ih trivial).inside (Expr.liesIn_block ?_))
    exact List.mem_append_right _ List.mem_cons_self
  | sequenceMore k ignored _ _ _ _ ihafter ih =>
    refine MarksIn.append .copiedAll ((ih (ihafter trivial)).inside (Expr.liesIn_block ?_))
    exact List.mem_append_right _ List.mem_cons_self
  | bindingsValue _ _ ih =>
    exact MarksIn.append .copiedBindings ((ih trivial).under Expr.liesIn_binding)
  | bindingsCode => exact MarksIn.copiedBindings
  | bindingsMore k _ _ _ ihafter ih =>
    exact MarksIn.append .copiedBindings ((ih (ihafter trivial)).under Expr.liesIn_binding)
  | noCleanup => exact List.forall_mem_nil _
  | cleanup k v g f err g' _ _ ihvalue iherror =>
    refine List.forall_mem_append.2 ⟨fun m hm hP => ?_, fun m hm hP => ?_⟩
    · refine ⟨_, List.mem_cons_self, m.around, ?_, (List.append_nil _).symm⟩
      exact (ihvalue trivial).under liesIn_continuation m hm hP
    · obtain ⟨m', hm', rfl⟩ := List.mem_map.1 hm
      refine ⟨_, List.mem_cons_of_mem _ List.mem_cons_self, m'.around ++ [err], ?_, ?_⟩
      · exact (iherror trivial m' hm' hP).trans liesIn_continuation
      · rw [List.append_assoc]
        rfl
  | noClauses => exact List.forall_mem_nil _
  | clauses f err g _ _ ih =>
    intro m hm hP
    obtain ⟨m', hm', rfl⟩ := List.mem_map.1 hm
    obtain ⟨clause, hclause, Γ, hΓ, haround⟩ := ih trivial m' hm' hP
    refine ⟨_, List.mem_cons_self, Γ ++ [clause.var] ++ [err], ?_, ?_⟩
    · exact (hΓ.trans (liesIn_selection hclause)).trans liesIn_continuation
    · rw [← haround]
      exact (List.append_nil _).symm
  | noBodies => exact List.forall_mem_nil _
  | bodies _ _ ihbody ihrest =>
    refine List.forall_mem_append.2 ⟨fun m hm hP => ?_, fun m hm hP => ?_⟩
    · obtain ⟨m', hm', rfl⟩ := List.mem_map.1 hm
      refine ⟨_, List.mem_cons_self, m'.around, ?_, rfl⟩
      have := (ihbody trivial m' hm' hP).trans Expr.liesIn_function
      rwa [List.append_nil] at this
    · obtain ⟨clause, hclause, hΓ⟩ := ihrest trivial m hm hP
      exact ⟨clause, List.mem_cons_of_mem _ hclause, hΓ⟩

/-- The code that uses the values of some trees lies in the code that evaluates these trees,
and only minted names are bound between the two. -/
theorem Derives.finish_liesIn {values : List Operand} {es : List Expr} {finish : Finish}
    {ms : List Mark} {ns : List Mint}
    (h : Derives table (.inOrder Γ s values es finish) (.code code) ms ns) :
  ∃ added, finish.code.LiesIn added code ∧ ∀ x ∈ added, ∃ n ∈ ns, n.symbol = x
  := by
  generalize hjob : Job.inOrder Γ s values es finish = job at h
  generalize hout : Output.code code = out at h
  induction h generalizing Γ s values es code with
  | finish =>
    cases hjob
    cases hout
    exact ⟨[], .refl _, List.forall_mem_nil _⟩
  | suspended v k _ h ihrest _ =>
    cases hjob
    cases hout
    obtain ⟨added, hadded, hminted⟩ := ihrest rfl rfl
    cases h with
    | receive k v err _ _ =>
      refine ⟨_, (hadded.trans liesIn_continuation).trans Expr.value_liesIn_binding, ?_⟩
      rw [List.append_nil]
      refine List.forall_mem_append.2 ⟨fun x hx => ?_, List.forall_mem_singleton.2 ?_⟩
      · obtain ⟨n, hn, hx⟩ := hminted x hx
        exact ⟨n, List.mem_cons_of_mem _ (List.mem_append_left _ hn), hx⟩
      · exact ⟨_, List.mem_cons_self, rfl⟩
  | kept _ _ _ _ ih =>
    cases hjob
    cases hout
    exact ih rfl rfl
  | named t _ _ _ _ ih =>
    cases hjob
    cases hout
    obtain ⟨added, hadded, hminted⟩ := ih rfl rfl
    refine ⟨_, hadded.trans Expr.body_liesIn_binding, ?_⟩
    refine List.forall_mem_append.2 ⟨fun x hx => ?_, List.forall_mem_singleton.2 ?_⟩
    · obtain ⟨n, hn, hx⟩ := hminted x hx
      exact ⟨n, List.mem_cons_of_mem _ hn, hx⟩
    · exact ⟨_, List.mem_cons_self, rfl⟩
  | _ => cases hjob

/-- What is marked when a whole body is compiled lies in the code. -/
theorem Compiles.marksIn {ms : List Mark} {ns : List Mint} (h : Compiles table body code ms ns)
    (hcopy : P .copy → table.UsesArgs) :
  MarksIn P ms code
  := by
  cases h with
  | mk success failure h =>
    exact MarksIn.under (h.holds hcopy trivial) (@Expr.liesIn_lambda _ none [success, failure])

end Skein.Coroutine
