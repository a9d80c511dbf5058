import Skein.Proofs.Restoring

/-!
# Frames nest

The dynamic context changes in three ways: a frame is entered, the frames above a depth are left,
and something is done in a snapshot, after which the context is the one before.  Where no frame is
in force at first, every frame that is ever in force records how many frames there are with it, in
the context as in the snapshots that have been taken of it, however the changes follow each other.

So a frame is left by the depth before it, whatever has been entered and left since, as long as no
frame below it has been left: then exactly the frames are in force that were in force before it.
-/

namespace Skein

open Run

/-! ### Frames that record their number -/

section numbered

variable {α : Type} {fs : List (Frame α)} {c : Context α}

/-- Every frame records how many frames there are with it. -/
def Frame.Numbered : List (Frame α) → Prop
  | [] => True
  | f :: fs => f.depth = fs.length + 1 ∧ Numbered fs

/-- Every frame of a context records how many frames there are with it. -/
def Context.Numbered (c : Context α) : Prop := Frame.Numbered c.frames

/-- The frames that are left when some are dropped record their number as before. -/
theorem Frame.Numbered.drop (h : Frame.Numbered fs) (n : Nat) :
  Frame.Numbered (fs.drop n)
  := by
  induction n generalizing fs with
  | zero => exact h
  | succ n ih =>
    cases fs with
    | nil => trivial
    | cons f fs => exact ih h.2

namespace Context

/-- The frames above a depth are dropped when there are as many frames; otherwise their number is
what is found. -/
theorem framesTo_of_numbered (h : Frame.Numbered fs) (depth : Nat) :
  framesTo depth fs =
    if depth ≤ fs.length then .ok (fs.drop (fs.length - depth)) else .error fs.length
  := by
  induction fs with
  | nil => simp only [framesTo, List.length_nil, Nat.le_zero, List.drop_nil]
  | cons f fs ih =>
    obtain ⟨hf, hfs⟩ := h
    rw [framesTo, hf, List.length_cons]
    rcases Nat.lt_trichotomy (fs.length + 1) depth with hlt | rfl | hgt
    · rw [if_neg (Nat.ne_of_lt hlt), if_pos hlt, if_neg (Nat.not_le.2 hlt)]
    · rw [if_pos rfl, if_pos (Nat.le_refl _), Nat.sub_self, List.drop_zero]
    · have hle : depth ≤ fs.length := Nat.le_of_lt_succ hgt
      rw [if_neg (Nat.ne_of_gt hgt), if_neg (Nat.lt_asymm hgt), ih hfs, if_pos hle,
        if_pos (Nat.le_of_lt hgt), Nat.succ_sub hle, List.drop_succ_cons]

/-- A context without frames. -/
theorem numbered_of_nil (h : c.frames = []) :
  c.Numbered
  := by
  rw [Numbered, h]
  trivial

namespace Numbered

variable (h : c.Numbered)
include h

/-- The depth that the innermost frame records is the number of frames. -/
theorem depth_eq :
  c.depth = c.frames.length
  := by
  rw [Numbered] at h
  rw [depth]
  cases hfs : c.frames with
  | nil => rfl
  | cons f fs =>
    rw [hfs] at h
    exact h.1

/-- A frame that is entered records the number of frames. -/
theorem push (bindings : List (Symbol × α)) :
  (c.push bindings).Numbered
  := ⟨congrArg Nat.succ h.depth_eq, h⟩

/-- A depth at which there are frames can be gone back to. -/
theorem popTo_of_le {depth : Nat} (hdepth : depth ≤ c.depth) :
  c.popTo depth = .ok { c with frames := c.frames.drop (c.depth - depth) }
  := by
  rw [h.depth_eq] at hdepth ⊢
  rw [popTo, framesTo_of_numbered h, if_pos hdepth]
  rfl

/-- A depth at which there are no frames cannot be gone back to. -/
theorem popTo_of_lt {depth : Nat} (hdepth : c.depth < depth) :
  c.popTo depth = .error c.depth
  := by
  rw [h.depth_eq] at hdepth ⊢
  rw [popTo, framesTo_of_numbered h, if_neg (Nat.not_le.2 hdepth)]
  rfl

end Numbered

end Context

end numbered

/-! ### Looking names up -/

/-- A frame binds a name to the value of the last pair for it. -/
def Frame.Binds (f : Frame Value) (x : Symbol) (v : Value) : Prop :=
  ∃ before after, f.bindings = before ++ (x, v) :: after ∧ ∀ b ∈ after, b.1 ≠ x

/-- What is found for a name in a frame is what the frame binds it to. -/
theorem Frame.lookup?_eq_some_iff {f : Frame Value} {x : Symbol} {v : Value} :
  f.lookup? x = some v ↔ f.Binds x v
  := by
  rw [Frame.lookup?, List.lookup_eq_some_iff]
  constructor
  · rintro ⟨after, before, hbindings, hafter⟩
    refine ⟨before.reverse, after.reverse, ?_, fun b hb => ?_⟩
    · rw [← List.reverse_reverse f.bindings, hbindings, List.reverse_append, List.reverse_cons,
        List.append_assoc, List.singleton_append]
    · exact (bne_iff_ne.1 (hafter b (List.mem_reverse.1 hb))).symm
  · rintro ⟨before, after, hbindings, hafter⟩
    refine ⟨after.reverse, before.reverse, ?_, fun b hb => ?_⟩
    · rw [hbindings, List.reverse_append, List.reverse_cons, List.append_assoc,
        List.singleton_append]
    · exact bne_iff_ne.2 (hafter b (List.mem_reverse.1 hb)).symm

/-- Nothing is found for a name in a frame that has no pair for it. -/
theorem Frame.lookup?_eq_none_iff {f : Frame Value} {x : Symbol} :
  f.lookup? x = none ↔ ∀ b ∈ f.bindings, b.1 ≠ x
  := by
  rw [Frame.lookup?, List.lookup_eq_none_iff]
  constructor
  · exact fun h b hb => (bne_iff_ne.1 (h b (List.mem_reverse.2 hb))).symm
  · exact fun h b hb => bne_iff_ne.2 (h b (List.mem_reverse.1 hb)).symm

/-- What is found for a name is what the innermost frame with a pair for it binds it to. -/
theorem Context.lookup?_eq_some_iff {c : Context Value} {x : Symbol} {v : Value} :
  c.lookup? x = some v ↔ ∃ inner f outer, c.frames = inner ++ f :: outer ∧ f.Binds x v ∧
    ∀ g ∈ inner, ∀ b ∈ g.bindings, b.1 ≠ x
  := by
  simp only [Context.lookup?, List.findSome?_eq_some_iff, Frame.lookup?_eq_some_iff,
    Frame.lookup?_eq_none_iff]

/-! ### Changes of the context -/

/-- What can be done with the dynamic context.  The snapshots that have been taken are told apart
by the order in which they were taken. -/
inductive Context.Move where
  /-- Enter a frame. -/
  | push (bindings : List (Symbol × Value))
  /-- Leave the frames above a depth. -/
  | pop (depth : Nat)
  /-- Take a snapshot, which drives the execution that was driven or another one. -/
  | capture (driven : Option Nat)
  /-- Do something in a snapshot. -/
  | enter (i : Nat) (moves : List Move)

namespace Context.Move

mutual

/-- Do something with the dynamic context, where some snapshots have been taken; the snapshots
that have been taken then.  A condition that is raised changes nothing more. -/
def run : Move → List (Context Value) → Run (List (Context Value))
  | push bindings, taken => do
    let _ ← pushFrame bindings
    return taken
  | pop depth, taken => do
    let _ ← attempt (popFrames depth)
    return taken
  | capture driven, taken => do
    let c ← Run.capture
    return taken ++ [driven.elim c c.driving]
  | enter i moves, taken =>
    match taken[i]? with
    | none => return taken
    | some snapshot => entering snapshot (runAll moves taken)

/-- Do one thing after another. -/
def runAll : List Move → List (Context Value) → Run (List (Context Value))
  | [], taken => return taken
  | move :: moves, taken => do
    let taken ← move.run taken
    runAll moves taken

end

/-- What is reached while one thing is done after another, the insides of snapshots included. -/
inductive Reaches : List Move → List (Context Value) → Machine → List (Context Value) → Machine →
    Prop where
  | here {moves : List Move} {taken : List (Context Value)} {m : Machine} :
    Reaches moves taken m taken m
  | after {move : Move} {moves : List Move} {taken taken₁ taken' : List (Context Value)}
    {m m₁ m' : Machine} (h : (move.run taken).Gives m (.ok taken₁) m₁)
    (hrest : Reaches moves taken₁ m₁ taken' m') : Reaches (move :: moves) taken m taken' m'
  | inside {i : Nat} {body moves : List Move} {taken taken' : List (Context Value)}
    {snapshot : Context Value} {m m' : Machine} (hi : taken[i]? = some snapshot)
    (h : Reaches body taken { m with context := snapshot } taken' m') :
    Reaches (.enter i body :: moves) taken m taken' m'

end Context.Move

namespace Context

/-- What changes make of a context: its frames record their number, it drives the execution that
was driven, and of the frames at the bottom none has changed that no change has gone below. -/
structure Follows (moves : List Move) (c c' : Context Value) : Prop where
  numbered : c'.Numbered
  execution : c'.execution = c.execution
  kept : ∀ base, base <:+ c.frames → (∀ depth, .pop depth ∈ moves → base.length ≤ depth) →
    base <:+ c'.frames

variable {moves : List Move} {taken taken' : List (Context Value)} {c c₁ c' : Context Value}
  {m m' : Machine}

/-- Changes that end in the context in which they began. -/
theorem Follows.refl (h : c.Numbered) (moves : List Move) :
  Follows moves c c
  := ⟨h, rfl, fun _ hbase _ => hbase⟩

/-- One change and then the others. -/
theorem Follows.cons {move : Move} (h : Follows [move] c c₁) (h' : Follows moves c₁ c') :
  Follows (move :: moves) c c'
  where
  numbered := h'.numbered
  execution := h'.execution.trans h.execution
  kept base hbase hpop := by
    have hfirst := h.kept base hbase fun depth hdepth =>
      hpop depth (List.mem_cons.2 (.inl (List.mem_singleton.1 hdepth)))
    exact h'.kept base hfirst fun depth hdepth => hpop depth (List.mem_cons_of_mem _ hdepth)

/-- Entering a frame keeps the frames around it. -/
theorem Numbered.follows_push (h : c.Numbered) (bindings : List (Symbol × Value)) :
  Follows [.push bindings] c (c.push bindings)
  := ⟨h.push bindings, rfl, fun _ hbase _ => hbase.trans (List.suffix_cons _ _)⟩

/-- Going back to a depth keeps the frames up to that depth. -/
theorem Numbered.follows_pop (h : c.Numbered) {depth : Nat} (hdepth : depth ≤ c.depth) :
  Follows [.pop depth] c { c with frames := c.frames.drop (c.depth - depth) }
  where
  numbered := Frame.Numbered.drop h _
  execution := rfl
  kept base hbase hpop := by
    have hlength : base.length ≤ depth := hpop depth List.mem_cons_self
    rw [h.depth_eq] at hdepth ⊢
    refine List.suffix_of_suffix_length_le hbase (List.drop_suffix _ _) ?_
    rw [List.length_drop]
    omega

/-- Leaving frames ends in some frames of the context, or raises a condition and changes
nothing. -/
theorem Numbered.attempt_popFrames (h : m.context.Numbered) (depth : Nat) :
  ∃ r c, (attempt (popFrames depth)).Gives m (.ok r) { m with context := c } ∧
    Follows [.pop depth] m.context c
  := by
  rcases Nat.lt_or_ge m.context.depth depth with hlt | hle
  · exact ⟨_, m.context, (raises_popFrames (h.popTo_of_lt hlt)).attempt, .refl h _⟩
  · exact ⟨_, _, (gives_popFrames (h.popTo_of_le hle)).attempt, h.follows_pop hle⟩

/-- Whatever is done with the dynamic context comes to an end, and changes nothing but the
context. -/
theorem Move.runAll_gives (moves : List Move) {taken : List (Context Value)} {m : Machine}
    (hm : m.context.Numbered) (htaken : ∀ s ∈ taken, s.Numbered) :
  ∃ taken' c, (Move.runAll moves taken).Gives m (.ok taken') { m with context := c } ∧
    Follows moves m.context c ∧ ∀ s ∈ taken', s.Numbered
  := by
  revert taken m
  -- The induction is over the tree of changes: what is done in a snapshot is smaller.
  refine Move.rec_1 (motive_1 := fun move => ∀ {taken : List (Context Value)} {m : Machine},
      m.context.Numbered → (∀ s ∈ taken, s.Numbered) →
      ∃ taken' c, (move.run taken).Gives m (.ok taken') { m with context := c } ∧
        Follows [move] m.context c ∧ ∀ s ∈ taken', s.Numbered)
    (motive_2 := fun moves => ∀ {taken : List (Context Value)} {m : Machine},
      m.context.Numbered → (∀ s ∈ taken, s.Numbered) →
      ∃ taken' c, (Move.runAll moves taken).Gives m (.ok taken') { m with context := c } ∧
        Follows moves m.context c ∧ ∀ s ∈ taken', s.Numbered)
    ?push ?pop ?capture ?enter ?nil ?cons moves
  case push =>
    intro bindings taken m hm htaken
    exact ⟨taken, m.context.push bindings, rfl, hm.follows_push bindings, htaken⟩
  case pop =>
    intro depth taken m hm htaken
    obtain ⟨r, c, hpop, hfollows⟩ := hm.attempt_popFrames depth
    exact ⟨taken, c, hpop.bind (gives_pure taken _), hfollows, htaken⟩
  case capture =>
    intro driven taken m hm htaken
    refine ⟨_, m.context, rfl, .refl hm _, fun s hs => ?_⟩
    rcases List.mem_append.1 hs with hs | hs
    · exact htaken s hs
    · obtain rfl := List.mem_singleton.1 hs
      cases driven <;> exact hm
  case enter =>
    intro i body ih taken m hm htaken
    cases hi : taken[i]? with
    | none => exact ⟨taken, m.context, by rw [Move.run, hi]; rfl, .refl hm _, htaken⟩
    | some snapshot =>
      have hsnapshot : snapshot.Numbered := htaken snapshot (List.mem_of_getElem? hi)
      obtain ⟨taken', c, hbody, -, htaken'⟩ := ih (m := { m with context := snapshot }) hsnapshot
        htaken
      refine ⟨taken', m.context, ?_, .refl hm _, htaken'⟩
      rw [Move.run, hi]
      exact gives_entering_iff.2 ⟨_, hbody, rfl⟩
  case nil =>
    intro taken m hm htaken
    exact ⟨taken, m.context, rfl, .refl hm _, htaken⟩
  case cons =>
    intro move moves ih ihs taken m hm htaken
    obtain ⟨taken₁, c₁, hmove, hfirst, htaken₁⟩ := ih hm htaken
    obtain ⟨taken', c, hmoves, hrest, htaken'⟩ := ihs (m := { m with context := c₁ })
      hfirst.numbered htaken₁
    exact ⟨taken', c, hmove.bind hmoves, hfirst.cons hrest, htaken'⟩

/-- Wherever changes lead from a context whose frames record their number, they do so. -/
theorem Move.Reaches.numbered (h : Move.Reaches moves taken m taken' m')
    (hm : m.context.Numbered) (htaken : ∀ s ∈ taken, s.Numbered) :
  m'.context.Numbered ∧ ∀ s ∈ taken', s.Numbered
  := by
  induction h with
  | here => exact ⟨hm, htaken⟩
  | @after move _ taken _ _ m _ _ hmove _ ih =>
    obtain ⟨taken₁, c, hgives, hfollows, htaken₁⟩ := Move.runAll_gives [move] hm htaken
    obtain ⟨h₁, rfl⟩ := (hmove.bind (gives_pure _ _)).unique hgives
    cases h₁
    exact ih hfollows.numbered htaken₁
  | inside hi _ ih => exact ih (htaken _ (List.mem_of_getElem? hi)) htaken

end Context

/-! ### Entering and leaving -/

/-- The frames of a machine nest, where some snapshots have been taken. -/
structure Machine.FramesNest (taken : List (Context Value)) (m : Machine) : Prop where
  /-- The innermost frame records how many frames there are. -/
  depth : m.context.depth = m.context.frames.length
  /-- A frame that is entered is left by the depth that entering it gives, and with it whatever has
  been entered since, unless frames have been left in the meantime that are below that depth. -/
  paired : ∀ (bindings : List (Symbol × Value)) (moves : List Context.Move),
    (∀ depth, .pop depth ∈ moves → m.context.depth ≤ depth) →
    ∃ taken' m₁ m₂, (pushFrame bindings).Gives m (.ok m.context.depth) m₁ ∧
      (Context.Move.runAll moves taken).Gives m₁ (.ok taken') m₂ ∧
      (popFrames m.context.depth).Gives m₂ (.ok ()) m
  /-- A depth above the number of frames is refused, and nothing is changed. -/
  refused : ∀ depth, m.context.depth < depth →
    (popFrames depth).Gives m (.error ⟨.error, "binding frame " ++ toString depth
      ++ " is not active (depth is " ++ toString m.context.depth ++ ")", .nil⟩) m
  /-- A name has the value of the last pair for it in the innermost frame that has one. -/
  found : ∀ x v, m.context.lookup? x = some v ↔
    ∃ inner f outer, m.context.frames = inner ++ f :: outer ∧ f.Binds x v ∧
      ∀ g ∈ inner, ∀ b ∈ g.bindings, b.1 ≠ x

section nesting

variable {moves : List Context.Move} {taken taken' : List (Context Value)} {m m' : Machine}

/-- The frames that are in force after some changes inside of a frame are gone back to by the
depth before it. -/
theorem Context.Follows.popTo_push {c c' : Context Value} {bindings : List (Symbol × Value)}
    (h : Follows moves (c.push bindings) c') (hc : c.Numbered)
    (hmoves : ∀ depth, .pop depth ∈ moves → c.depth ≤ depth) :
  c'.popTo c.depth = .ok c
  := by
  have hbase : c.frames <:+ c'.frames := by
    refine h.kept c.frames (List.suffix_cons _ _) fun depth hdepth => ?_
    rw [← hc.depth_eq]
    exact hmoves depth hdepth
  have hdepth : c.depth ≤ c'.depth := by
    rw [hc.depth_eq, h.numbered.depth_eq]
    exact hbase.length_le
  have hframes : c'.frames.drop (c'.depth - c.depth) = c.frames := by
    rw [hc.depth_eq, h.numbered.depth_eq]
    exact (List.suffix_iff_eq_drop.1 hbase).symm
  rw [h.numbered.popTo_of_le hdepth, hframes, h.execution]
  rfl

/-- Frames that record their number nest. -/
theorem Context.Numbered.framesNest (hm : m.context.Numbered) (htaken : ∀ s ∈ taken, s.Numbered) :
  m.FramesNest taken
  where
  depth := hm.depth_eq
  paired bindings moves hmoves := by
    obtain ⟨taken', c, hgives, hfollows, -⟩ := Context.Move.runAll_gives moves
      (m := { m with context := m.context.push bindings }) (hm.push bindings) htaken
    exact ⟨taken', _, _, rfl, hgives, gives_popFrames (hfollows.popTo_push hm hmoves)⟩
  refused _ hdepth := raises_popFrames (hm.popTo_of_lt hdepth)
  found _ _ := Context.lookup?_eq_some_iff

/-- Whatever is done with the dynamic context, where no frame is in force at first and no snapshot
has been taken, the frames nest wherever it leads. -/
theorem frames_nest (hm : m.context.frames = [])
    (h : Context.Move.Reaches moves [] m taken' m') :
  m'.FramesNest taken'
  := by
  have hempty : ∀ s ∈ ([] : List (Context Value)), s.Numbered := fun _ hs =>
    absurd hs List.not_mem_nil
  obtain ⟨hnumbered, htaken⟩ := h.numbered (Context.numbered_of_nil hm) hempty
  exact hnumbered.framesNest htaken

/-- Changes of which the last one happens in a snapshot: the frame of the snapshot has been left
before. -/
def reboundMoves : List Context.Move :=
  [.push [("x", .int 1)], .capture none, .pop 0,
    .enter 0 [.push [("x", .int 2), ("x", .int 3)]]]

/-- Inside of the snapshot two frames are in force, they nest, and the name has the value of the
last pair for it. -/
theorem reboundMoves_frames_nest :
  ∃ taken m, Context.Move.Reaches reboundMoves [] .empty taken m ∧ m.FramesNest taken ∧
    m.context.depth = 2 ∧ m.context.lookup? "x" = some (.int 3)
  := by
  have hreaches : ∃ taken m, Context.Move.Reaches reboundMoves [] .empty taken m ∧
      m.context.depth = 2 ∧ m.context.lookup? "x" = some (.int 3) :=
    ⟨_, _, .after rfl (.after rfl (.after rfl (.inside rfl (.after rfl .here)))), rfl, rfl⟩
  obtain ⟨taken, m, hreaches, hdepth, hfound⟩ := hreaches
  exact ⟨taken, m, hreaches, frames_nest rfl hreaches, hdepth, hfound⟩

end nesting

end Skein
