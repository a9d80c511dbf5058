import Skein.Proofs.Parts

/-!
# Breakpoints inside function literals

A place in a tree is the list of the positions that lead to it, each one counted among the
children of a tree, or the position of the body of a function literal.  Children are listed in
the order in which they are evaluated, so places in the order of words in a dictionary are places
in the order of evaluation.

The search for a breakpoint inside a function literal is exact.  It finds nothing when there is no
reference to a breakpoint inside a function literal, and otherwise the reference at the first of
all places, with the call around it when the reference is the operator of the call.
-/

namespace Skein.Expr

variable {isBreakpoint : Symbol → Bool} {inside : Bool} {c d e body : Expr} {x y : Symbol}
  {p q : List Nat} {i j : Nat} {v : Violation}

/-! ### Places -/

/-- A tree stands in another one at a place; whether it stands inside a function literal
there. -/
inductive StandsAt : List Nat → Bool → Expr → Expr → Prop where
  | here (e : Expr) : StandsAt [] false e e
  | child {i : Nat} {p : List Nat} {inside : Bool} {c d e : Expr}
    (hd : e.children[i]? = some d) (hc : StandsAt p inside c d) : StandsAt (i :: p) inside c e
  | body {p : List Nat} {inside : Bool} {c body : Expr} (name : Option Symbol)
    (params : List Symbol) (hc : StandsAt p inside c body) :
    StandsAt (0 :: p) true c (.lambda name params body)

/-- What a reference at a place is part of: the call whose operator it is, and otherwise only
the reference itself. -/
inductive FormAt (e : Expr) : List Nat → Expr → Prop where
  | operator {p : List Nat} {inside : Bool} {x : Symbol} {args : List Expr}
    (h : (call (var x) args).StandsAt p inside e) : FormAt e (p ++ [0]) (call (var x) args)
  | bare {p : List Nat} {inside : Bool} {x : Symbol} (h : (var x).StandsAt p inside e)
    (hbare : ∀ q, p = q ++ [0] → ∀ inside f args, ¬ (call f args).StandsAt q inside e) :
    FormAt e p (var x)

/-- A breakpoint is referred to at a place in a tree that is inside a function literal of it, or
in any place when the tree itself is `inside` one. -/
def Misused (isBreakpoint : Symbol → Bool) (inside : Bool) (e : Expr) (p : List Nat)
    (x : Symbol) : Prop :=
  isBreakpoint x = true ∧ ∃ within, (var x).StandsAt p within e ∧ (inside || within) = true

/-- A place comes no later than another one, like words in a dictionary: it is passed on the way
to that one, or turns off before it. -/
inductive NoLater : List Nat → List Nat → Prop where
  | passed (q : List Nat) : NoLater [] q
  | before (p q : List Nat) {i j : Nat} (h : i < j) : NoLater (i :: p) (j :: q)
  | along (i : Nat) {p q : List Nat} (h : NoLater p q) : NoLater (i :: p) (i :: q)

/-- Of two places, only one comes first. -/
theorem NoLater.antisymm {p q : List Nat} (h : NoLater p q) (h' : NoLater q p) :
  p = q
  := by
  induction h with
  | passed q =>
    cases h'
    rfl
  | before p q h =>
    cases h' with
    | before _ _ h' => exact absurd h' (Nat.lt_asymm h)
    | along => exact absurd h (Nat.lt_irrefl _)
  | along i _ ih =>
    cases h' with
    | before _ _ h' => exact absurd h' (Nat.lt_irrefl _)
    | along _ h' => rw [ih h']

/-- The breakpoint at the first of all places where one is misused. -/
def FirstMisused (isBreakpoint : Symbol → Bool) (inside : Bool) (e : Expr) (v : Violation) :
    Prop :=
  ∃ p, Misused isBreakpoint inside e p v.op ∧ FormAt e p v.form ∧
    ∀ q y, Misused isBreakpoint inside e q y → NoLater p q

/-- At the place of a tree itself stands nothing else. -/
theorem standsAt_nil_iff :
  c.StandsAt [] inside e ↔ c = e ∧ inside = false
  := by
  constructor
  · rintro ⟨⟩
    exact ⟨rfl, rfl⟩
  · rintro ⟨rfl, rfl⟩
    exact .here c

/-- At a place in a child stands what stands there in the child. -/
theorem standsAt_child_iff (hd : e.children[i]? = some d) :
  c.StandsAt (i :: p) inside e ↔ c.StandsAt p inside d
  := by
  constructor
  · intro h
    cases h with
    | child hd' hc =>
      cases hd'.symm.trans hd
      exact hc
    | body name params => cases hd
  · exact .child hd

/-- At a place in the body of a function literal stands what stands there in the body. -/
theorem standsAt_body_iff {name : Option Symbol} {params : List Symbol} :
  c.StandsAt p inside (lambda name params body) ↔
    (p = [] ∧ c = lambda name params body ∧ inside = false) ∨
      ∃ q within, p = 0 :: q ∧ inside = true ∧ c.StandsAt q within body
  := by
  constructor
  · intro h
    cases h with
    | here => exact .inl ⟨rfl, rfl, rfl⟩
    | child hd => cases hd
    | body _ _ hc => exact .inr ⟨_, _, rfl, rfl, hc⟩
  · rintro (⟨rfl, rfl, rfl⟩ | ⟨q, within, rfl, rfl, hc⟩)
    · exact .here _
    · exact .body name params hc

/-! ### What is misused in the parts of a tree -/

/-- In a function literal is misused what its body refers to. -/
theorem misused_body_iff {name : Option Symbol} {params : List Symbol} :
  Misused isBreakpoint inside (lambda name params body) p x ↔
    ∃ q, p = 0 :: q ∧ Misused isBreakpoint true body q x
  := by
  constructor
  · rintro ⟨hx, within, hstands, -⟩
    rcases standsAt_body_iff.1 hstands with ⟨-, hvar, -⟩ | ⟨q, within', rfl, -, hc⟩
    · cases hvar
    · exact ⟨q, rfl, hx, within', hc, rfl⟩
  · rintro ⟨q, rfl, hx, within, hc, -⟩
    exact ⟨hx, true, .body name params hc, Bool.or_true inside⟩

/-- In a child is misused what is misused there in the tree. -/
theorem misused_child_iff (hd : e.children[i]? = some d) :
  Misused isBreakpoint inside e (i :: p) x ↔ Misused isBreakpoint inside d p x
  := by
  unfold Misused
  simp only [standsAt_child_iff hd]

/-- What is misused in a tree that is neither a reference nor a function literal is misused in a
child. -/
theorem exists_child_of_misused (hbody : e.functionBody? = none) (hvar : e ≠ var x)
    (h : Misused isBreakpoint inside e p x) :
  ∃ i q d, p = i :: q ∧ e.children[i]? = some d
  := by
  obtain ⟨-, within, hstands, -⟩ := h
  cases hstands with
  | here => exact absurd rfl hvar
  | child hd => exact ⟨_, _, _, rfl, hd⟩
  | body => cases hbody

/-- A reference that a child is part of is so in the tree, when it is not the operator of the
tree itself. -/
theorem FormAt.child (hd : e.children[i]? = some d) (h : FormAt d p c)
    (hoperator : ∀ f args, p = [] → i = 0 → e ≠ call f args) :
  FormAt e (i :: p) c
  := by
  cases h with
  | operator h => exact .operator (.child hd h)
  | bare h hbare =>
    refine .bare (.child hd h) fun q hq within f args hcall => ?_
    cases q with
    | nil =>
      obtain ⟨rfl, rfl⟩ := List.cons.inj hq
      exact hoperator f args rfl rfl (standsAt_nil_iff.1 hcall).1.symm
    | cons k q =>
      obtain ⟨rfl, rfl⟩ := List.cons.inj hq
      exact hbare q rfl within f args ((standsAt_child_iff hd).1 hcall)

/-- A reference in the body of a function literal is part of the same form. -/
theorem FormAt.inBody (h : FormAt body p c) (name : Option Symbol) (params : List Symbol) :
  FormAt (lambda name params body) (0 :: p) c
  := by
  cases h with
  | operator h => exact .operator (.body name params h)
  | bare h hbare =>
    refine .bare (.body name params h) fun q hq within f args hcall => ?_
    rcases standsAt_body_iff.1 hcall with ⟨-, hlambda, -⟩ | ⟨q, within', rfl, -, hcall⟩
    · cases hlambda
    · exact hbare q (List.cons.inj hq).2 within' f args hcall

/-! ### What a tree mentions itself -/

/-- What a tree mentions itself is the first that is misused in it when it is inside a function
literal. -/
theorem firstMisused_of_mention? (h : e.mention? isBreakpoint = some v) :
  FirstMisused isBreakpoint true e v
  := by
  unfold mention? at h
  split at h
  · rename_i x
    obtain ⟨hx, hv⟩ := Option.ite_none_right_eq_some.1 h
    cases hv
    refine ⟨[], ⟨hx, false, .here _, rfl⟩, .bare (.here _) ?_, fun q _ _ => .passed q⟩
    intro q hq
    exact absurd hq.symm (List.concat_ne_nil 0 q)
  · rename_i f args
    obtain ⟨x, hcalled, hv⟩ := Option.map_eq_some_iff.1 h
    cases hv
    unfold calledBreakpoint? at hcalled
    split at hcalled
    · rename_i x args heq
      cases heq
      obtain ⟨hx, hx'⟩ := Option.ite_none_right_eq_some.1 hcalled
      cases hx'
      refine ⟨[0], ⟨hx, false, .child rfl (.here _), rfl⟩, .operator (p := []) (.here _), ?_⟩
      intro q y hq
      have hvar : call (var x) args ≠ var y := nofun
      obtain ⟨i, q, d, rfl, -⟩ := exists_child_of_misused rfl hvar hq
      rcases Nat.eq_zero_or_pos i with rfl | hi
      · exact .along 0 (.passed q)
      · exact .before [] q hi
    · cases hcalled
  · cases h

/-- A call of a breakpoint mentions it. -/
theorem mention?_call {args : List Expr} (hx : isBreakpoint x = true) :
  (call (var x) args).mention? isBreakpoint = some ⟨x, call (var x) args⟩
  := by
  rw [mention?, calledBreakpoint?, if_pos hx]
  rfl

/-! ### The search -/

/-- The search is exact: it finds the first breakpoint that is misused, if there is one. -/
def Exact (isBreakpoint : Symbol → Bool) (inside : Bool) (e : Expr) : Option Violation → Prop
  | none => ∀ p x, ¬ Misused isBreakpoint inside e p x
  | some v => FirstMisused isBreakpoint inside e v

/-- Searching the children in turn is exact when searching each of them is, and the tree does not
mention a breakpoint itself. -/
theorem exact_findSome? (hbody : e.functionBody? = none)
    (hmention : inside = true → e.mention? isBreakpoint = none)
    (ih : ∀ c ∈ e.children, Exact isBreakpoint inside c (c.firstMention? isBreakpoint inside)) :
  Exact isBreakpoint inside e
    (e.children.findSome? fun c => c.firstMention? isBreakpoint inside)
  := by
  have hvar : ∀ p x, Misused isBreakpoint inside e p x → e ≠ var x := by
    rintro p x ⟨hx, within, hstands, hwithin⟩ rfl
    cases hstands with
    | child hd => cases hd
    | here =>
      have hnone := hmention ((Bool.or_false inside).symm.trans hwithin)
      rw [mention?, if_pos hx] at hnone
      cases hnone
  cases hfound : e.children.findSome? fun c => c.firstMention? isBreakpoint inside with
  | none =>
    intro p x hmisused
    obtain ⟨i, q, d, rfl, hd⟩ := exists_child_of_misused hbody (hvar p x hmisused) hmisused
    have hmem := List.mem_of_getElem? hd
    have hexact := ih d hmem
    rw [List.findSome?_eq_none_iff.1 hfound d hmem] at hexact
    exact hexact q x ((misused_child_iff hd).1 hmisused)
  | some v =>
    obtain ⟨before, d, after, hsplit, hd, hbefore⟩ := List.findSome?_eq_some_iff.1 hfound
    have hchild : e.children[before.length]? = some d := by
      rw [hsplit, List.getElem?_append_right (Nat.le_refl _), Nat.sub_self, List.getElem?_cons_zero]
    have hexact := ih d (List.mem_of_getElem? hchild)
    rw [hd] at hexact
    obtain ⟨p, hmisused, hform, hfirst⟩ := hexact
    refine ⟨before.length :: p, (misused_child_iff hchild).2 hmisused, hform.child hchild ?_, ?_⟩
    · -- The operator of the tree would have been mentioned by the tree itself.
      rintro f args rfl hzero rfl
      rw [hzero] at hchild
      obtain rfl := Option.some.inj hchild
      obtain ⟨hx, within, hstands, hwithin⟩ := hmisused
      obtain ⟨hv, rfl⟩ := standsAt_nil_iff.1 hstands
      have hnone := hmention ((Bool.or_false inside).symm.trans hwithin)
      rw [← hv, mention?_call hx] at hnone
      cases hnone
    · intro q y hq
      obtain ⟨i, q, c, rfl, hc⟩ := exists_child_of_misused hbody (hvar q y hq) hq
      have hq := (misused_child_iff hc).1 hq
      rcases Nat.lt_trichotomy before.length i with hlt | rfl | hlt
      · exact .before _ q hlt
      · cases hc.symm.trans hchild
        exact .along _ (hfirst q y hq)
      · rw [hsplit, List.getElem?_append_left hlt] at hc
        have hmem := List.mem_of_getElem? hc
        have hexact := ih c (hsplit ▸ List.mem_append_left _ hmem)
        rw [hbefore c hmem] at hexact
        exact absurd hq (hexact q y)

/-- The search for the first breakpoint is exact, by induction on the weight of the tree. -/
theorem firstMention?_exact (inside : Bool) (e : Expr) :
  Exact isBreakpoint inside e (e.firstMention? isBreakpoint inside)
  := by
  rw [firstMention?_eq]
  cases hbody : e.functionBody? with
  | some body =>
    have := weight_lt_of_functionBody? hbody
    have hexact := firstMention?_exact true body
    cases e with
    | lambda name params _ =>
      cases hbody
      dsimp only
      cases hfound : body.firstMention? isBreakpoint true with
      | none =>
        rw [hfound] at hexact
        intro p x hmisused
        obtain ⟨q, -, hmisused⟩ := misused_body_iff.1 hmisused
        exact hexact q x hmisused
      | some v =>
        rw [hfound] at hexact
        obtain ⟨p, hmisused, hform, hfirst⟩ := hexact
        refine ⟨0 :: p, misused_body_iff.2 ⟨p, rfl, hmisused⟩, hform.inBody name params, ?_⟩
        intro q y hq
        obtain ⟨q, rfl, hmisused⟩ := misused_body_iff.1 hq
        exact .along 0 (hfirst q y hmisused)
    | _ => cases hbody
  | none =>
    have hchildren : ∀ c ∈ e.children,
        Exact isBreakpoint inside c (c.firstMention? isBreakpoint inside) := by
      intro c hc
      have := weight_lt_of_mem_children hc
      exact firstMention?_exact inside c
    dsimp only
    cases inside with
    | false => exact exact_findSome? hbody nofun hchildren
    | true =>
      cases hmention : e.mention? isBreakpoint with
      | some v => exact firstMisused_of_mention? hmention
      | none => exact exact_findSome? hbody (fun _ => hmention) hchildren
termination_by e.weight

/-! ### What is found -/

/-- At a place stands one tree. -/
theorem StandsAt.unique {within : Bool} (h : c.StandsAt p inside e)
    (h' : d.StandsAt p within e) :
  c = d
  := by
  induction h generalizing within with
  | here => exact (standsAt_nil_iff.1 h').1.symm
  | child hd _ ih => exact ih ((standsAt_child_iff hd).1 h')
  | body _ _ _ ih =>
    rcases standsAt_body_iff.1 h' with ⟨hp, -⟩ | ⟨q, _, hq, -, hd⟩
    · cases hp
    · cases hq
      exact ih hd

/-- A reference at a place is part of one form. -/
theorem FormAt.unique (h : FormAt e p c) (h' : FormAt e p d) :
  c = d
  := by
  cases h with
  | @operator q _ _ _ h =>
    generalize hp : q ++ [0] = p at h'
    cases h' with
    | operator h' =>
      obtain rfl := List.append_cancel_right hp
      exact h.unique h'
    | bare _ hbare => exact absurd h (hbare q hp.symm _ _ _)
  | bare h hbare =>
    cases h' with
    | operator h' => exact absurd h' (hbare _ rfl _ _ _)
    | bare h' => exact h.unique h'

/-- The search for a breakpoint inside a function literal is exact.  It finds nothing exactly when
there is no reference to a breakpoint inside a function literal of the tree, in whatever
position and however many literals are around it.  Otherwise it finds the reference at the first
place in the order of evaluation, and reports the call around it when the reference is the
operator of the call, and else the bare reference. -/
theorem violation?_exact (isBreakpoint : Symbol → Bool) (e : Expr) :
  (e.violation? isBreakpoint = none ↔
    ∀ p x, isBreakpoint x = true → ¬ (var x).StandsAt p true e) ∧
  ∀ v, e.violation? isBreakpoint = some v ↔
    ∃ p, isBreakpoint v.op = true ∧ (var v.op).StandsAt p true e ∧ FormAt e p v.form ∧
      ∀ q x, isBreakpoint x = true → (var x).StandsAt q true e → NoLater p q
  := by
  have hmisused : ∀ p x, Misused isBreakpoint false e p x ↔
      isBreakpoint x = true ∧ (var x).StandsAt p true e := by
    intro p x
    constructor
    · rintro ⟨hx, within, hstands, rfl⟩
      exact ⟨hx, hstands⟩
    · exact fun ⟨hx, hstands⟩ => ⟨hx, true, hstands, rfl⟩
  have hexact : Exact isBreakpoint false e (e.violation? isBreakpoint) :=
    firstMention?_exact false e
  cases hfound : e.violation? isBreakpoint with
  | none =>
    rw [hfound] at hexact
    have hnone : ∀ p x, isBreakpoint x = true → ¬ (var x).StandsAt p true e :=
      fun p x hx h => hexact p x ((hmisused p x).2 ⟨hx, h⟩)
    refine ⟨iff_of_true rfl hnone, fun v => iff_of_false nofun ?_⟩
    rintro ⟨p, hx, h, -⟩
    exact hnone p _ hx h
  | some v =>
    rw [hfound] at hexact
    obtain ⟨p, hp, hform, hfirst⟩ := hexact
    obtain ⟨hx, hstands⟩ := (hmisused p v.op).1 hp
    have hleast : ∀ q x, isBreakpoint x = true → (var x).StandsAt q true e → NoLater p q :=
      fun q x hx h => hfirst q x ((hmisused q x).2 ⟨hx, h⟩)
    refine ⟨iff_of_false nofun fun h => h p _ hx hstands, fun w => ⟨?_, ?_⟩⟩
    · rintro ⟨⟩
      exact ⟨p, hx, hstands, hform, hleast⟩
    · rintro ⟨q, hy, hstands', hform', hleast'⟩
      obtain rfl := (hleast q _ hy hstands').antisymm (hleast' p _ hx hstands)
      have hop : v.op = w.op := Expr.var.inj (hstands.unique hstands')
      have hform : v.form = w.form := hform.unique hform'
      obtain ⟨op, form⟩ := v
      obtain ⟨op', form'⟩ := w
      cases hop
      cases hform
      rfl

end Skein.Expr
