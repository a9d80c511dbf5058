import Skein.Proofs.Simulation.Await
import Skein.Proofs.Simulation.Loops
import Skein.Proofs.Simulation.Protect

/-!
# Bodies

The code of every tree that can stand in a body follows every run of the tree in its
manner.  The proof goes by induction on the direct run, with one statement for each kind of
part that is evaluated.
-/

namespace Skein

open Coroutine

variable {own : Nat} {G : Aim} {U : Symbol → Prop} {manner : Manner} {inner : Bool} {env : Env}
  {last last₁ : Option (Context Value)} {m m₁ m₂ : Machine} {r : Ended Yield}

/-! ### What runs of lowered code leave behind -/

/-- A machine that has not changed leaves nothing behind. -/
theorem Quiet.refl (m : Machine) :
  Quiet m m
  := ⟨rfl, rfl⟩

/-- What leaves nothing behind twice leaves nothing behind. -/
theorem Quiet.trans (h : Quiet m m₁) (h' : Quiet m₁ m₂) :
  Quiet m m₂
  := ⟨h'.levels.trans h.levels, h'.pending.trans h.pending⟩

/-- Another context leaves nothing behind. -/
theorem Quiet.backIn (m : Machine) (last : Option (Context Value)) :
  Quiet m (m.backIn last)
  := by
  cases last <;> exact ⟨rfl, rfl⟩

/-- Where nothing waits and nothing is left behind, nothing waits. -/
theorem Quiet.idle (h : Quiet m m₁) (hidle : m.Idle) :
  m₁.Idle
  := by
  obtain ⟨⟨steps, levels, hl⟩, hp⟩ := hidle
  exact ⟨⟨steps, levels, h.levels.trans hl⟩, h.pending.trans hp⟩

/-- A run in the manner of lowered code leaves nothing behind. -/
theorem Direct.quiet {t : Task} (h : Direct .lowered inner t env last m r last₁ m₁) :
  Quiet m m₁
  := by
  induction h with
  | plain hn h hq => exact hq
  | await hn h hr ih =>
    obtain ⟨id, rest, rfl, rfl, rfl⟩ := Instrument.answerWith_eq hr
    exact ih.trans ⟨rfl, rfl⟩
  | call hn hf h hr hq ih => exact ih.trans hq
  | define hn h hx ih =>
    obtain ⟨-, rfl⟩ := hx.unique (s := .ok ()) rfl
    exact ih.trans ⟨rfl, rfl⟩
  | treesNil | bindingsNil => exact Quiet.refl _
  -- one part is evaluated
  | awaitError _ _ ih | callError _ _ _ ih | condError _ _ ih | seq _ _ ih | bindError _ _ ih
  | loopError _ _ ih | recur _ _ ih | recurError _ _ ih | protect _ _ ih | defineError _ _ ih
  | treesHead _ ih | statementsLast _ ih | statementsHead _ _ ih | bindingsHead _ ih | done _ ih
  | passed _ ih | uncaught _ _ ih => exact ih
  -- two parts are evaluated, one after the other
  | cond _ _ _ ih ih' | bind _ _ _ ih ih' | loop _ _ _ ih ih' | cleanup _ _ _ ih ih'
  | cleanupError _ _ _ ih ih' | treesCons _ _ ih ih' | treesTail _ _ ih ih'
  | statementsCons _ _ _ ih ih' | bindingsCons _ _ ih ih' | caught _ _ _ ih ih' =>
    exact ih.trans ih'
  | again h hs hr ih ih' =>
    obtain rfl := hs
    exact (ih.trans (Quiet.backIn _ _)).trans ih'

/-- Where nothing waits before a run, nothing waits after it. -/
theorem Direct.idle {t : Task} (h : Direct .lowered inner t env last m r last₁ m₁)
    (hidle : m.Idle) :
  m₁.Idle
  := h.quiet.idle hidle

/-- What does not suspend has not been suspended before. -/
theorem Direct.first_eq_none {t : Task} (h : Direct manner inner t env last m r last₁ m₁)
    (hlast : last₁ = none) :
  last = none
  := by
  induction h with
  | plain | treesNil | bindingsNil => exact hlast
  | await => cases hlast
  -- one part is evaluated
  | awaitError _ _ ih | call _ _ _ _ _ ih | callError _ _ _ ih | condError _ _ ih | seq _ _ ih
  | bindError _ _ ih | loopError _ _ ih | recur _ _ ih | recurError _ _ ih | protect _ _ ih
  | define _ _ _ ih | defineError _ _ ih | treesHead _ ih | statementsLast _ ih
  | statementsHead _ _ ih | bindingsHead _ ih | done _ ih | passed _ ih | uncaught _ _ ih =>
    exact ih hlast
  -- two parts are evaluated, one after the other
  | cond _ _ _ ih ih' | bind _ _ _ ih ih' | loop _ _ _ ih ih' | cleanup _ _ _ ih ih'
  | cleanupError _ _ _ ih ih' | treesCons _ _ ih ih' | treesTail _ _ ih ih'
  | statementsCons _ _ _ ih ih' | bindingsCons _ _ ih ih' | again _ _ _ ih ih'
  | caught _ _ _ ih ih' =>
    exact ih (ih' hlast)

/-- Nothing hinders code from following a run: its calls leave nothing behind and nothing waits
before it, or it does not suspend. -/
inductive Manner.Unhindered : Manner → Option (Context Value) → Machine → Prop where
  | lowered {last : Option (Context Value)} {m : Machine} (hidle : m.Idle) :
    Unhindered .lowered last m
  | evaluated {m : Machine} : Unhindered .evaluated none m

namespace Manner.Unhindered

/-- Nothing hinders code where nothing has been left behind. -/
theorem quiet (h : manner.Unhindered last m) (hq : Quiet m m₁) :
  manner.Unhindered last m₁
  := by
  cases h with
  | lowered hidle => exact .lowered (hq.idle hidle)
  | evaluated => exact .evaluated

/-- Nothing hinders code from following the first part of a run. -/
theorem first {t : Task} {last' : Option (Context Value)} (hw : manner.Unhindered last' m)
    (h : Direct manner inner t env last₁ m₁ r last' m₂) :
  manner.Unhindered last₁ m
  := by
  cases hw with
  | lowered hidle => exact .lowered hidle
  | evaluated =>
    obtain rfl := h.first_eq_none rfl
    exact .evaluated

/-- Nothing hinders code from following the second part of a run. -/
theorem next {t : Task} {last' : Option (Context Value)} (hw : manner.Unhindered last' m)
    (h : Direct manner inner t env last m r last₁ m₁) :
  manner.Unhindered last' m₁
  := by
  cases hw with
  | lowered hidle => exact .lowered (h.idle hidle)
  | evaluated => exact .evaluated

/-- A loop is entered anew in the context of the last suspension. -/
theorem enters {t : Task} {last' : Option (Context Value)} {m' : Machine}
    (hw : manner.Unhindered last' m) (hs : manner.enters last₁ m₁ m₂)
    (h : Direct manner inner t env last₁ m₂ r last' m') :
  m₂ = m₁.backIn last₁
  := by
  cases hw with
  | lowered => exact hs
  | evaluated =>
    obtain rfl := h.first_eq_none rfl
    exact hs

end Manner.Unhindered

/-! ### The simulation -/

/-- The code of the part of a body that a task evaluates follows a run of the task. -/
def Task.Followed (own : Nat) (G : Aim) (U : Symbol → Prop) (inner : Bool)
    (env : Env) (last : Option (Context Value)) (m : Machine) (r : Ended Yield)
    (last₁ : Option (Context Value)) (m₁ : Machine) : Task → Prop
  | tree e => e.Followed own G U inner env last m r last₁ m₁
  | trees es => ∃ s : Ended (List Value), r = s.map .values ∧
      Expr.AllFollowed own G U inner es env last m s last₁ m₁
  | statements es => Expr.StatementsFollowed own G U inner es env last m r last₁ m₁
  | bindings bs => ∃ s : Ended Env, r = s.map .scope ∧
      Expr.BindingsFollowed own G U inner bs env last m s last₁ m₁
  | iterate scope names body => inner = true →
      Expr.LoopFollowed own G U scope names body env last m r last₁ m₁
  | guarded body clauses => ∃ (s s' : Ended Value) (last₂ : Option (Context Value)) (m₂ : Machine),
      r = s'.map .value ∧ body.Followed own G U inner env last m (s.map .value) last₂ m₂ ∧
      Catches own G U inner env clauses last₂ m₂ s s' last₁ m₁

section followed

variable {es : List Expr} {bs : List (Symbol × Expr)} {d : Condition Value}

/-- Trees that give values are followed. -/
theorem Task.Followed.values {vs : List Value}
    (h : (Task.trees es).Followed own G U inner env last m (.ok (.values vs)) last₁ m₁) :
  Expr.AllFollowed own G U inner es env last m (.ok vs) last₁ m₁
  := by
  obtain ⟨s, hs, h⟩ := h
  cases s <;> cases hs
  exact @h

/-- Trees of which one raises a condition are followed. -/
theorem Task.Followed.trees_error
    (h : (Task.trees es).Followed own G U inner env last m (.error d) last₁ m₁) :
  Expr.AllFollowed own G U inner es env last m (.error d) last₁ m₁
  := by
  obtain ⟨s, hs, h⟩ := h
  cases s <;> cases hs
  exact @h

/-- Bindings that give a scope are followed. -/
theorem Task.Followed.scope {env₁ : Env}
    (h : (Task.bindings bs).Followed own G U inner env last m (.ok (.scope env₁)) last₁ m₁) :
  Expr.BindingsFollowed own G U inner bs env last m (.ok env₁) last₁ m₁
  := by
  obtain ⟨s, hs, h⟩ := h
  cases s <;> cases hs
  exact @h

/-- Bindings of which one raises a condition are followed. -/
theorem Task.Followed.bindings_error
    (h : (Task.bindings bs).Followed own G U inner env last m (.error d) last₁ m₁) :
  Expr.BindingsFollowed own G U inner bs env last m (.error d) last₁ m₁
  := by
  obtain ⟨s, hs, h⟩ := h
  cases s <;> cases hs
  exact @h

end followed

/-- The names that a tree of a body mentions when it need not be lowered. -/
theorem Expr.InBody.user {tail : Bool} {e : Expr} (h : e.InBody U tail) :
  ¬ e.Needs inner → ∀ y, e.Mentions y → U y
  := fun hn _ hy => h.mentions (Expr.reaches_of_not_needs hn) hy

/-- The names that a single tree of a body mentions when it need not be lowered. -/
theorem forall_user_singleton {tail : Bool} {e : Expr} (h : e.InBody U tail) (inner : Bool) :
  ∀ d ∈ [e], ¬ d.Needs inner → ∀ y, d.Mentions y → U y
  := by
  intro d hd
  obtain rfl := List.mem_singleton.1 hd
  exact h.user

/-- A single tree that has a value is followed as one of several. -/
theorem Expr.Followed.all {tail : Bool} {e : Expr} {v : Value} (hbody : e.InBody U tail)
    (hd : Direct manner inner (.tree e) env last m (.ok (.value v)) last₁ m₁)
    (h : e.Followed own G U inner env last m (.ok (.value v)) last₁ m₁) :
  Expr.AllFollowed own G U inner [e] env last m (.ok [v]) last₁ m₁
  := by
  exact Expr.AllFollowed.of_direct (r := .ok []) (forall_user_singleton hbody inner) hd
    .treesNil h Expr.AllFollowed.nil

/-- A single tree that raises a condition is followed as one of several. -/
theorem Expr.Followed.all_error {tail : Bool} {e : Expr} {d : Condition Value}
    (hbody : e.InBody U tail)
    (hd : Direct manner inner (.tree e) env last m (.error d) last₁ m₁)
    (h : e.Followed own G U inner env last m (.error d) last₁ m₁) :
  Expr.AllFollowed own G U inner [e] env last m (.error d) last₁ m₁
  := by
  exact Expr.AllFollowed.of_direct_error (forall_user_singleton hbody inner) hd h

/-- The branch that a conditional takes can stand in a body. -/
theorem Expr.InBody.branch {tail c : Bool} {yes no : Expr} (hyes : yes.InBody U tail)
    (hno : no.InBody U tail) :
  ∃ tail, (if c then yes else no).InBody U tail
  := by
  cases c with
  | true => exact ⟨tail, hyes⟩
  | false => exact ⟨tail, hno⟩

/-- Code follows the runs in its manner. -/
theorem Direct.followed {t : Task} (h : Direct manner inner t env last m r last₁ m₁)
    (hbody : t.InBody U) (hw : manner.Unhindered last₁ m) :
  t.Followed own G U inner env last m r last₁ m₁
  := by
  induction h with
  | plain hn h hq =>
    obtain ⟨tail, hbody⟩ := hbody
    exact Expr.Followed.plain hn (hbody.user hn) h
  -- calls
  | await hn h hr ih =>
    obtain ⟨tail, hbody⟩ := hbody
    cases hw with | lowered hidle
    exact Expr.Followed.await hn (ih hbody.await_args (.lowered hidle)).values (h.idle hidle) hr
  | awaitError hn h ih =>
    obtain ⟨tail, hbody⟩ := hbody
    exact Expr.Followed.await_error hn (ih hbody.await_args hw).trees_error
  | call hn hf h hr hq ih =>
    obtain ⟨tail, hbody⟩ := hbody
    cases hbody with
    | await => exact absurd rfl hf
    | call hfb hargs =>
      exact Expr.Followed.call hn hf (ih (List.forall_mem_cons.2 ⟨hfb, hargs⟩) hw).values hr
  | callError hn hf h ih =>
    obtain ⟨tail, hbody⟩ := hbody
    cases hbody with
    | await => exact absurd rfl hf
    | call hfb hargs =>
      exact Expr.Followed.call_error hn hf
        (ih (List.forall_mem_cons.2 ⟨hfb, hargs⟩) hw).trees_error
  -- conditionals, sequences and bindings
  | cond hn htest h ihtest ih =>
    obtain ⟨tail, hbody⟩ := hbody
    cases hbody with | cond htb hyes hno
    exact Expr.Followed.cond hn (Expr.Followed.all htb htest (ihtest ⟨false, htb⟩ (hw.first h)))
      (ih (Expr.InBody.branch hyes hno) (hw.next htest))
  | condError hn htest ih =>
    obtain ⟨tail, hbody⟩ := hbody
    cases hbody with | cond htb hyes hno
    exact Expr.Followed.cond_error hn (Expr.Followed.all_error htb htest (ih ⟨false, htb⟩ hw))
  | seq hn h ih =>
    obtain ⟨tail, hbody⟩ := hbody
    cases hbody with | seq hes hlast
    exact Expr.Followed.seq hn (ih (Expr.InBody.of_seq hes hlast) hw)
  | bind hn hbs h ihbs ih =>
    obtain ⟨tail, hbody⟩ := hbody
    cases hbody with | bind hx hbsb hbody
    exact Expr.Followed.bind hn (ihbs ⟨hx, hbsb⟩ (hw.first h)).scope
      (ih ⟨tail, hbody⟩ (hw.next hbs))
  | bindError hn hbs ih =>
    obtain ⟨tail, hbody⟩ := hbody
    cases hbody with | bind hx hbsb hbody
    exact Expr.Followed.bind_error hn (ih ⟨hx, hbsb⟩ hw).bindings_error
  -- loops
  | loop hn hbs h ihbs ih =>
    obtain ⟨tail, hbody⟩ := hbody
    cases hbody with | loop hx hbsb hbody
    exact Expr.Followed.loop hn hx hbs (ihbs ⟨hx, hbsb⟩ (hw.first h)).scope
      (ih ⟨List.forall_mem_map.2 hx, hbody⟩ (hw.next hbs) rfl)
  | loopError hn hbs ih =>
    obtain ⟨tail, hbody⟩ := hbody
    cases hbody with | loop hx hbsb hbody
    exact Expr.Followed.loop_error hn (ih ⟨hx, hbsb⟩ hw).bindings_error
  | recur hn h ih =>
    obtain ⟨tail, hbody⟩ := hbody
    cases hbody with | recur hes
    exact Expr.Followed.recur hn (ih hes hw).values
  | recurError hn h ih =>
    obtain ⟨tail, hbody⟩ := hbody
    cases hbody with | recur hes
    exact Expr.Followed.recur_error hn (ih hes hw).trees_error
  -- protected bodies and definitions
  | protect hn h ih =>
    obtain ⟨tail, hbody⟩ := hbody
    cases hbody with | protect hb hx hclauses hcleanup
    obtain ⟨s, s', last₂, m₂, rfl, hb, hcatches⟩ := ih ⟨hb, hx, hclauses⟩ hw
    exact Expr.Followed.protect hn hb hcatches .none
  | cleanup hn h he ih ihe =>
    obtain ⟨tail, hbody⟩ := hbody
    cases hbody with | protect hb hx hclauses hcleanup
    obtain ⟨s, s', last₂, m₂, rfl, hb, hcatches⟩ := ih ⟨hb, hx, hclauses⟩ (hw.first he)
    exact Expr.Followed.protect hn hb hcatches
      (.value (hcleanup _ rfl).user he.ends_of_not_needs (ihe ⟨false, hcleanup _ rfl⟩ (hw.next h)))
  | cleanupError hn h he ih ihe =>
    obtain ⟨tail, hbody⟩ := hbody
    cases hbody with | protect hb hx hclauses hcleanup
    obtain ⟨s, s', last₂, m₂, rfl, hb, hcatches⟩ := ih ⟨hb, hx, hclauses⟩ (hw.first he)
    exact Expr.Followed.protect_error hn hb hcatches
      (.error (hcleanup _ rfl).user he.raises_of_not_needs
        (ihe ⟨false, hcleanup _ rfl⟩ (hw.next h)))
  | define hn h hx ih =>
    obtain ⟨tail, hbody⟩ := hbody
    cases hbody with | define x he
    exact Expr.Followed.define hn (Expr.Followed.all he h (ih ⟨false, he⟩ hw)) hx
  | defineError hn h ih =>
    obtain ⟨tail, hbody⟩ := hbody
    cases hbody with | define x he
    exact Expr.Followed.define_error hn (Expr.Followed.all_error he h (ih ⟨false, he⟩ hw))
  -- trees in turn
  | treesNil => exact ⟨.ok [], rfl, Expr.AllFollowed.nil⟩
  | treesCons h hs ih ihs =>
    obtain ⟨he, hes⟩ := List.forall_mem_cons.1 hbody
    refine ⟨.ok _, rfl, ?_⟩
    exact Expr.AllFollowed.of_direct (r := .ok _) (fun e he => (hbody e he).user) h hs
      (ih ⟨false, he⟩ (hw.first hs)) (ihs hes (hw.next h)).values
  | treesHead h ih =>
    obtain ⟨he, -⟩ := List.forall_mem_cons.1 hbody
    refine ⟨.error _, rfl, ?_⟩
    exact Expr.AllFollowed.of_direct_error (fun e he => (hbody e he).user) h
      (ih ⟨false, he⟩ hw)
  | treesTail h hs ih ihs =>
    obtain ⟨he, hes⟩ := List.forall_mem_cons.1 hbody
    refine ⟨.error _, rfl, ?_⟩
    exact Expr.AllFollowed.of_direct (r := .error _) (fun e he => (hbody e he).user) h hs
      (ih ⟨false, he⟩ (hw.first hs)) (ihs hes (hw.next h)).trees_error
  | statementsLast h ih =>
    obtain ⟨tail, he⟩ := hbody _ List.mem_cons_self
    exact Expr.StatementsFollowed.single he.user h.of_not_needs (ih ⟨tail, he⟩ hw)
  | statementsCons hne h hs ih ihs =>
    obtain ⟨⟨tail, he⟩, hes⟩ := List.forall_mem_cons.1 hbody
    exact Expr.StatementsFollowed.cons hne he.user h.ends_of_not_needs (ih ⟨tail, he⟩ (hw.first hs))
      (ihs hes (hw.next h))
  | statementsHead hne h ih =>
    obtain ⟨tail, he⟩ := hbody _ List.mem_cons_self
    exact Expr.StatementsFollowed.head hne he.user h.raises_of_not_needs (ih ⟨tail, he⟩ hw)
  | bindingsNil => exact ⟨.ok _, rfl, Expr.BindingsFollowed.nil⟩
  | bindingsCons h hs ih ihs =>
    obtain ⟨hx, hbs⟩ := hbody
    obtain ⟨hx, hxs⟩ := List.forall_mem_cons.1 hx
    obtain ⟨he, hbs⟩ := List.forall_mem_cons.1 hbs
    obtain ⟨s, rfl, hfollowed⟩ := ihs ⟨hxs, hbs⟩ (hw.next h)
    refine ⟨s, rfl, ?_⟩
    exact Expr.BindingsFollowed.cons hx he.user h.ends_of_not_needs
      (ih ⟨false, he⟩ (hw.first hs)) hfollowed
  | bindingsHead h ih =>
    obtain ⟨he, -⟩ := List.forall_mem_cons.1 hbody.2
    refine ⟨.error _, rfl, ?_⟩
    exact Expr.BindingsFollowed.head he.user h.raises_of_not_needs (ih ⟨false, he⟩ hw)
  -- the body of a loop
  | done h ih =>
    rintro rfl
    exact Expr.LoopFollowed.done hbody.1 (ih ⟨true, hbody.2⟩ hw)
  | again h hs hr ih ihr =>
    rintro rfl
    obtain rfl := hw.enters hs hr
    exact Expr.LoopFollowed.again hbody.1 (ih ⟨true, hbody.2⟩ (hw.first hr))
      (ihr hbody ((hw.next h).quiet (Quiet.backIn _ _)) rfl)
  -- a body and its clauses
  | passed h ih =>
    exact ⟨.ok _, .ok _, _, _, rfl, ih ⟨false, hbody.1⟩ hw, .passed⟩
  | caught h hclause hr ih ihr =>
    obtain ⟨hb, hx, hclauses⟩ := hbody
    have hmem := List.mem_of_find?_eq_some hclause
    exact ⟨.error _, _, _, _, rfl, ih ⟨false, hb⟩ (hw.first hr),
      .caught (hx _ hmem) hclause (ihr ⟨false, hclauses _ hmem⟩ (hw.next h))⟩
  | uncaught h hclause ih =>
    exact ⟨.error _, .error _, _, _, rfl, ih ⟨false, hbody.1⟩ hw, .uncaught hclause⟩

end Skein
