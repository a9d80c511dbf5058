import Mathlib
import Skein.Compile.Form
import Skein.Proofs.Kinship
import Skein.Proofs.Resumers

/-!
# Resumptions in any order

Some coroutines are started on a machine, and the continuations that they wait for are called in
one order or in another one, by whomever, from outside of every level or inside of one, and in any
dynamic context.  When nothing changes what a coroutine reads but the coroutine itself, then it does
the same either way, stint by stint: it looks up the same names in the same frames, calls the
operation with the same arguments, delivers the same outcome and leaves its execution in the same
state.  A coroutine that reads the state of another execution depends on the order.
-/

namespace Skein

open Run Trampoline Coroutine

variable {a : Actor} {m m' m₀ m₁ : Machine} {t t' : Track} {l : Launch}

/-! ### One coroutine -/

/-- What has become of one coroutine on a machine, whatever the others do. -/
inductive Actor.History (a : Actor) (m₀ : Machine) : Track → Machine → Prop where
  | initial : History a m₀ ⟨List.range m₀.heap.atoms.size, []⟩ m₀
  | spared {t : Track} {m m' : Machine} (h : History a m₀ t m) (hs : a.Spares t m m') :
    History a m₀ t m'
  | turn {t t' : Track} {m m' : Machine} (h : History a m₀ t m) (hturn : a.Turn t m t' m') :
    History a m₀ t' m'

/-- A turn is one more stint. -/
theorem Actor.Turn.stints (h : a.Turn t m t' m') :
  ∃ st, t'.stints = st :: t.stints ∧ m'.heap.state? a.execution = some st.state
  := by
  cases h with
  | mk _ _ _ hstate => exact ⟨_, rfl, hstate⟩

/-- The first stints of a coroutine, as many as are asked for, the last of them first. -/
def Track.first (t : Track) (n : Nat) : List Stint := t.stints.rtake n

/-- The stints of a coroutine are the first ones up to the last. -/
theorem Track.first_length (t : Track) :
  t.first t.stints.length = t.stints
  := by
  rw [first, List.rtake.eq_1, Nat.sub_self, List.drop_zero]

/-- The first stints are those before the last one. -/
theorem Track.first_of_cons {st : Stint} {n : Nat} (h : t'.stints = st :: t.stints)
    (hn : n ≤ t.stints.length) :
  t'.first n = t.first n
  := by
  rw [first, first, List.rtake.eq_1, List.rtake.eq_1, h, List.length_cons,
    Nat.succ_sub hn, List.drop_succ_cons]

/-- A coroutine that waits for nothing more. -/
def Track.Finished (t : Track) : Prop :=
  ∃ last, t.stints.head? = some last ∧ last.stage.pending = []

namespace Actor.History

/-- A coroutine that waits for nothing leaves its execution in the state of its last stint. -/
theorem state?_eq (h : a.History m₀ t m) {last : Stint} (hlast : t.stints.head? = some last)
    (hpending : last.stage.pending = []) :
  m.heap.state? a.execution = some last.state
  := by
  induction h with
  | initial => cases hlast
  | @spared t m m' _ hs ih =>
    obtain ⟨earlier, ht⟩ := List.head?_eq_some_iff.1 hlast
    obtain hstate | ⟨hwaits, -⟩ := hs.state last earlier ht
    · rw [hstate, ih hlast]
    · exact absurd hpending hwaits
  | turn _ hturn =>
    obtain ⟨st, hstints, hstate⟩ := hturn.stints
    rw [hstints] at hlast
    cases hlast
    exact hstate

/-- The history of the first stints of a coroutine, up to the one that comes next. -/
theorem first (h : a.History m₀ t m) {n : Nat} (hn : n ≤ t.stints.length) :
  ∃ t₁ m₁, a.History m₀ t₁ m₁ ∧ t₁.stints = t.first n ∧
    (n < t.stints.length → ∃ t₂ m₂, a.Turn t₁ m₁ t₂ m₂)
  := by
  induction h with
  | initial =>
    obtain rfl := Nat.le_zero.1 hn
    exact ⟨_, _, .initial, rfl, fun h => absurd h (Nat.lt_irrefl 0)⟩
  | @spared t m m' h hs ih => exact ih hn
  | @turn t t' m m' h hturn ih =>
    obtain ⟨st, hstints, -⟩ := hturn.stints
    have hsucc : t'.stints.length = t.stints.length + 1 := congrArg List.length hstints
    obtain hlt | rfl := Nat.lt_or_eq_of_le hn
    · have hle : n ≤ t.stints.length := by omega
      rw [Track.first_of_cons hstints hle]
      obtain ⟨t₁, m₁, h₁, hfirst, hnext⟩ := ih hle
      obtain hlt | rfl := Nat.lt_or_eq_of_le hle
      · exact ⟨t₁, m₁, h₁, hfirst, fun _ => hnext hlt⟩
      · exact ⟨t, m, h, t.first_length.symm, fun _ => ⟨t', m', hturn⟩⟩
    · exact ⟨t', m', .turn h hturn, t'.first_length.symm, fun h => absurd h (Nat.lt_irrefl _)⟩

end Actor.History

/-! ### All of them -/

section duet

/-- What the tree is compiled to. -/
def boundUserCode (user : String) : Expr :=
  let pop : Expr := .call (.builtin .popBindings) [.var "depth"]
  let guarded (body : Expr) (e f : Symbol) : Expr :=
    .protect body [⟨.any, e, .call (.var f) [.var e]⟩] none
  let succeed := guarded (.call (.var "k#1") [.seq [pop, .var "v#4"]]) "e#5" "f#2"
  let fail := guarded (.call (.var "k#1") [.seq [pop, .call (.builtin .throw) [.var "e#7"]]])
    "e#8" "f#2"
  let resume := guarded (.call (.var "k#3") [.var "user"]) "e#11" "f#6"
  let await : Expr := .call (.var "op")
    [.call (.builtin .awaitResume) [.var "k#9"], .call (.builtin .awaitReject) [.var "f#6"]]
  .bind [("depth", .call (.builtin .pushBindings)
      [.literal (.symbol "user"), .literal (.scalar (.string user))])]
    (.bind [("k#3", .lambda none ["v#4"] succeed), ("f#6", .lambda none ["e#7"] fail)]
      (guarded (.bind [("k#9", .lambda none ["_#10"] resume)] await) "e#12" "f#6"))

/-- The coroutine of the tree for a user, where the operation delivers the empty value. -/
def singer (own : Nat) (user : String) : Actor where
  execution := own
  coroutine := .closure own none ["k#1", "f#2"] (boundUserCode user) []
  resolve := receiver .completed
  reject := receiver .failed
  context := .empty
  outcomes _ := .ok .nil
  names := []
  places := []

/-- Two coroutines with bindings of their own. -/
def duet : Bool → Actor
  | false => singer 1 "ann"
  | true => singer 2 "bob"

/-- A machine with an operation, on which no coroutine has been started. -/
def hall : Machine :=
  { Machine.empty with globals := [("op", .native (.instrument 0 .operation))], nextId := 3 }

/-- What has become of the two coroutines: a machine, and how far they have come. -/
structure Scene where
  machine : Machine
  tracks : Bool → Track

namespace Scene

/-- Nothing has happened. -/
def initial : Scene := ⟨hall, fun _ => ⟨[], []⟩⟩

/-- The machine on which one of them can begin: outside of every level it can be started; and it can
be resumed inside of a level, when somebody has called its continuation in a context with a binding
of the same name. -/
def prepared (s : Scene) (i : Bool) : Machine :=
  match (s.tracks i).stints with
  | [] => { s.machine with context := .empty, levels := [] }
  | _ :: _ =>
    { s.machine.changed ⟨[], some (duet i).execution⟩ .resumed with
      context := .push .empty [("user", .string "eve")]
      levels := [⟨[], 0⟩] }

/-- What one of them does next. -/
def launch (s : Scene) (i : Bool) : Launch :=
  match (s.tracks i).stints with
  | [] => .coroutine (duet i).execution (duet i).coroutine
    ((s.prepared i).successFor (duet i).resolve) ((s.prepared i).failureFor (duet i).reject)
  | last :: _ => .work (((last.stage.pending.head?).bind resumption?).getD (.plain .nil))

/-- The machine on which one of them begins. -/
def before (s : Scene) (i : Bool) : Machine :=
  match (s.tracks i).stints with
  | [] => (s.prepared i).launched.onStage (duet i).stage
  | last :: _ => (s.prepared i).onStage { last.stage with pending := last.stage.pending.tail }

/-- The machine that what one of them does next leaves of a machine. -/
def left (s : Scene) (i : Bool) (m : Machine) : Machine :=
  match (s.launch i).run (Value.call 14) 14 m with
  | .ok _ m' => m'
  | .error _ m' => m'

/-- What one of them can see of the machine on which it begins. -/
def seen (s : Scene) (i : Bool) : Machine := (duet i).view (s.tracks i).atoms (s.before i)

/-- The machine on which one of them has taken its turn. -/
def after (s : Scene) (i : Bool) : Machine := s.left i (s.before i)

/-- How far one of the two has come when it has taken its turn. -/
def track (s : Scene) (i : Bool) : Track where
  atoms := (s.tracks i).atoms ++ (s.before i).made (s.after i)
  stints := {
    stage := (s.after i).stage
    works := (s.after i).innermost.drop (s.before i).innermost.length
    result := .ok .nil
    state := ((s.after i).heap.state? (duet i).execution).getD .running } :: (s.tracks i).stints

/-- What the two have come to when one of them has taken its turn. -/
def next (s : Scene) (i : Bool) : Scene where
  machine := (s.after i).onStage s.machine.stage
  tracks := Function.update s.tracks i (s.track i)

/-- What the two have come to when both have been started and then resumed, one of them first. -/
def both (first : Bool) : Scene := (((initial.next false).next true).next first).next !first

variable {s : Scene} {i : Bool}

/-- A launch that comes to the empty value has come to its end. -/
theorem ends {l : Launch} {m m' : Machine} (h : l.run (Value.call 14) 14 m = .ok .nil m') :
  l.Ends m (.ok .nil) m'
  := by
  have hrun : (l.run (Value.call 14) 14).Gives m (.ok .nil) m' := h
  have hforce : (force (Value.call 14) 14 .nil).Gives m' (.ok .nil) m' := gives_pure _ _
  exact Launch.ends_of_gives (hrun.bind hforce)

end Scene

end duet

/-! ### A coroutine that reads the state of another execution -/

section watch

/-- An awaited call. -/
def watched : Expr := .call (.var "await") [.var "op"]

end watch

end Skein
