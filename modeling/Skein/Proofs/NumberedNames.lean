import Skein.Proofs.FreshNames

/-!
# Numbers of names

Whatever a symbol table is asked, to number a spelling or to mint one, its numbers are those below
its size, each of them is the number of one spelling, and what it has answered once stays so.  The
answers are all that the table holds.

Minting tries one counter value after another and sets no bound on how often it does.  It comes to
an end, because the table holds fewer spellings than there are counter values to try, and the
spelling and the number that it answers with have been in no answer before.
-/

namespace Skein

namespace SymbolTable

variable {t t' : SymbolTable} {stem : String} {x : Symbol} {n k : Nat}
  {given : List (Nat × Symbol)}

/-! ### Trying counter values -/

/-- Counter values above `n` are tried, one after another, until one gives a spelling that is new:
this is so at `k`. -/
inductive Tries (t : SymbolTable) (stem : String) : (n k : Nat) → Prop where
  | free {n : Nat} (h : spell stem (n + 1) ∉ t.names) : Tries t stem n (n + 1)
  | taken {n k : Nat} (h : spell stem (n + 1) ∈ t.names) (hrest : Tries t stem (n + 1) k) :
    Tries t stem n k

/-- The tries end at one counter value at most. -/
theorem Tries.unique {k' : Nat} (h : t.Tries stem n k) (h' : t.Tries stem n k') :
  k = k'
  := by
  induction h with
  | free hfree =>
    cases h' with
    | free => rfl
    | taken htaken => exact absurd htaken hfree
  | taken htaken _ ih =>
    cases h' with
    | free hfree => exact absurd htaken hfree
    | taken _ hrest => exact ih hrest

/-- The tries end at the value that is found among a number of them, when that one is free. -/
theorem tries_of_free {tries : Nat} (h : spell stem (t.firstFree stem tries n) ∉ t.names) :
  t.Tries stem n (t.firstFree stem tries n)
  := by
  induction tries generalizing n with
  | zero => exact .free h
  | succ tries ih =>
    rw [firstFree] at h ⊢
    split at h
    · rename_i htaken
      rw [if_pos htaken]
      exact .taken (has_eq_true_iff.1 htaken) (ih h)
    · rename_i hfree
      rw [if_neg hfree]
      exact .free h

/-- The tries come to an end, at the value that minting takes. -/
theorem tries_mint (t : SymbolTable) (stem : String) :
  t.Tries stem t.counter (t.mint stem).2.counter
  := tries_of_free (t.mint_not_mem stem)

/-- No more counter values are tried than one above the number of spellings. -/
theorem firstFree_le (t : SymbolTable) (stem : String) (tries n : Nat) :
  t.firstFree stem tries n ≤ n + tries + 1
  := by
  induction tries generalizing n with
  | zero => exact Nat.le_refl _
  | succ tries ih =>
    rw [firstFree]
    split
    · have := ih (n + 1)
      omega
    · omega

/-! ### One question -/

/-- What a table can be asked. -/
inductive Query where
  /-- The number of a spelling. -/
  | intern (name : Symbol)
  /-- A spelling that is new, and its number. -/
  | mint (stem : String)

/-- The number and the spelling that a table answers with, and the table afterwards. -/
def answer (t : SymbolTable) : Query → (Nat × Symbol) × SymbolTable
  | .intern name => (((t.intern name).1, name), (t.intern name).2)
  | .mint stem =>
    let (name, t') := t.mint stem
    (((t'.intern name).1, name), t')

/-- What comes of a question: the table has held the spelling with that number and stays as it is,
or the spelling is new and gets the next number. -/
inductive Answers (t : SymbolTable) : Nat × Symbol → SymbolTable → Prop where
  | held {n : Nat} {x : Symbol} (h : t.name? n = some x) : Answers t (n, x) t
  | added {x : Symbol} {counter : Nat} (hx : x ∉ t.names)
    (hcounter : counter ≤ t.counter + t.size + 1) :
    Answers t (t.size, x) ⟨t.names.push x, counter⟩

/-- The spellings of a table are different from each other, and its counter has not gone further
than all tries together can have taken it. -/
structure Sound (t : SymbolTable) : Prop where
  nodup : t.names.toList.Nodup
  counter : 2 * t.counter ≤ t.size * (t.size + 1)

/-- A spelling has a number only when it is the spelling of that number. -/
theorem name?_of_id? (h : t.id? x = some n) :
  t.name? n = some x
  := by
  obtain ⟨hn, hx, -⟩ := Array.findIdx?_eq_some_iff_getElem.1 h
  rw [name?, Array.getElem?_eq_getElem hn, beq_iff_eq.1 hx]

/-- A spelling of the table has a number. -/
theorem exists_id? (h : x ∈ t.names) :
  ∃ n, t.id? x = some n
  := Option.isSome_iff_exists.1 (has_eq_true_iff.2 h)

/-- The spelling of a number is in the table. -/
theorem mem_of_name? (h : t.name? n = some x) :
  x ∈ t.names
  := Array.mem_of_getElem? h

/-- In a sound table the numbers of the spellings and the spellings of the numbers are the same
pairs. -/
theorem Sound.name?_eq_some_iff (h : t.Sound) :
  t.name? n = some x ↔ t.id? x = some n
  := by
  constructor
  · intro hn
    obtain ⟨k, hk⟩ := exists_id? (mem_of_name? hn)
    obtain ⟨hlt, hx⟩ := Array.getElem?_eq_some_iff.1 hn
    obtain ⟨hlt', hx'⟩ := Array.getElem?_eq_some_iff.1 (name?_of_id? hk)
    have hsame : t.names.toList[n] = t.names.toList[k] := hx.trans hx'.symm
    rw [h.nodup.getElem_inj_iff.1 hsame]
    exact hk
  · exact name?_of_id?

/-- The spelling that has been added last has the last number. -/
theorem id?_push (hx : x ∉ t.names) (counter : Nat) :
  (SymbolTable.mk (t.names.push x) counter).id? x = some t.size
  := by
  refine Array.findIdx?_eq_some_iff_getElem.2 ⟨?_, ?_, fun j hj => ?_⟩
  · rw [Array.size_push]
    exact Nat.lt_succ_self _
  · simp [size]
  · have hne : t.names[j] ≠ x := fun h => hx (h ▸ Array.getElem_mem hj)
    rw [Array.getElem_push_lt hj, beq_iff_eq]
    exact hne

/-- A table that is asked answers with a spelling that it has held, or adds one. -/
theorem answer_answers (t : SymbolTable) (q : Query) :
  t.Answers (t.answer q).1 (t.answer q).2
  := by
  cases q with
  | intern name =>
    rw [answer, intern]
    cases h : t.id? name with
    | some n => exact .held (name?_of_id? h)
    | none =>
      refine .added (fun hmem => ?_) (by omega)
      obtain ⟨n, hn⟩ := exists_id? hmem
      cases h.symm.trans hn
  | mint stem =>
    have hnew := t.mint_not_mem stem
    have hid : (t.mint stem).2.id? (t.mint stem).1 = some t.size := id?_push hnew _
    have hnumber : ((t.mint stem).2.intern (t.mint stem).1).1 = t.size := by
      rw [intern, hid]
    have hanswer : t.answer (.mint stem) = ((t.size, (t.mint stem).1), (t.mint stem).2) := by
      rw [← hnumber, answer]
    rw [hanswer]
    exact .added hnew (t.firstFree_le stem t.size t.counter)

namespace Answers

variable {a : Nat × Symbol} (h : t.Answers a t')
include h

/-- What is answered is in the table afterwards. -/
theorem name? :
  t'.name? a.1 = some a.2
  := by
  cases h with
  | held h => exact h
  | added => exact Array.getElem?_push_size

/-- What is in the table afterwards is what was in it and what has been answered. -/
theorem name?_eq_some_iff :
  t'.name? n = some x ↔ t.name? n = some x ∨ (n, x) = a
  := by
  cases h with
  | held h =>
    constructor
    · exact .inl
    · rintro (hn | ⟨⟨⟩⟩)
      · exact hn
      · exact h
  | @added y counter hy _ =>
    rw [SymbolTable.name?, SymbolTable.name?, Array.getElem?_push, Prod.mk.injEq]
    by_cases hn : n = t.names.size
    · subst hn
      simp [size, eq_comm]
    · have hne : ¬ (n = t.size ∧ x = y) := fun h => hn h.1
      simp [hn, hne]

/-- A sound table is sound afterwards. -/
theorem sound (ht : t.Sound) :
  t'.Sound
  := by
  cases h with
  | held => exact ht
  | @added y counter hy hcounter =>
    have hsize : (SymbolTable.mk (t.names.push y) counter).size = t.size + 1 := Array.size_push _
    constructor
    · rw [Array.toList_push, List.nodup_append]
      refine ⟨ht.nodup, List.nodup_singleton y, fun z hz w hw => ?_⟩
      obtain rfl := List.mem_singleton.1 hw
      rintro rfl
      exact hy (Array.mem_toList_iff.1 hz)
    · have hsquare : (t.size + 1) * (t.size + 1 + 1) = t.size * (t.size + 1) + 2 * (t.size + 1) := by
        rw [Nat.mul_comm, ← Nat.add_mul]
      have hbefore := ht.counter
      rw [hsize, hsquare]
      change 2 * counter ≤ _
      omega

end Answers

/-! ### One question after another -/

/-- The answers of a table that is asked one question after another, and the table afterwards. -/
def ask (t : SymbolTable) : List Query → List (Nat × Symbol) × SymbolTable
  | [] => ([], t)
  | q :: qs =>
    let (a, t₁) := t.answer q
    let (rest, t') := ask t₁ qs
    (a :: rest, t')

/-- The table holds what it has answered and nothing else. -/
structure Holds (given : List (Nat × Symbol)) (t : SymbolTable) : Prop extends t.Sound where
  iff : ∀ n x, t.name? n = some x ↔ (n, x) ∈ given

/-- A table that has answered nothing holds nothing. -/
theorem holds_empty :
  Holds [] empty
  where
  nodup := .nil
  counter := Nat.le_refl 0
  iff n x := by simp [name?, empty]

/-- A table that is asked holds its answer as well. -/
theorem Holds.answer (h : Holds given t) (q : Query) :
  Holds (given ++ [(t.answer q).1]) (t.answer q).2
  where
  toSound := (t.answer_answers q).sound h.toSound
  iff n x := by
    rw [(t.answer_answers q).name?_eq_some_iff, h.iff, List.mem_append, List.mem_singleton]

/-- A table that is asked one question after another holds its answers as well. -/
theorem Holds.ask (h : Holds given t) (qs : List Query) :
  Holds (given ++ (t.ask qs).1) (t.ask qs).2
  := by
  induction qs generalizing t given with
  | nil =>
    rw [SymbolTable.ask, List.append_nil]
    exact h
  | cons q qs ih =>
    have hrest := ih (h.answer q)
    rw [List.append_assoc, List.singleton_append] at hrest
    exact hrest

/-! ### What is true of every table -/

/-- A table is faithful to the answers that it has given. -/
structure Faithful (given : List (Nat × Symbol)) (t : SymbolTable) : Prop where
  /-- The numbers of spellings are those below the size. -/
  numbers : ∀ n, (∃ x, t.id? x = some n) ↔ n < t.size
  /-- A spelling has a number exactly when it is the spelling of that number. -/
  inverse : ∀ n x, t.id? x = some n ↔ t.name? n = some x
  /-- The table holds the answers that it has given, and nothing else. -/
  held : ∀ n x, t.name? n = some x ↔ (n, x) ∈ given
  /-- Whatever the table is asked, it keeps the numbers and the spellings that it has answered
  with. -/
  kept : ∀ qs, ∀ a ∈ given, (t.ask qs).2.name? a.1 = some a.2 ∧ (t.ask qs).2.id? a.2 = some a.1
  /-- A spelling that has been in an answer has the number of that answer and changes nothing. -/
  known : ∀ n x, (n, x) ∈ given → t.intern x = (n, t)
  /-- A spelling that has been in no answer gets a number that has been in none. -/
  unknown : ∀ x, (∀ a ∈ given, a.2 ≠ x) →
    (t.intern x).2.id? x = some (t.intern x).1 ∧ ∀ a ∈ given, a.1 ≠ (t.intern x).1
  /-- Minting tries counter values until one gives a new spelling, which happens whatever spellings
  the table holds; neither the spelling nor its number has been in an answer. -/
  minted : ∀ stem, ∃ k, (∀ k', t.Tries stem t.counter k' ↔ k' = k) ∧
    (t.mint stem).1 = spell stem k ∧ (t.mint stem).2.counter = k ∧
    ∃ n, (t.mint stem).2.id? (spell stem k) = some n ∧ ∀ a ∈ given, a.1 ≠ n ∧ a.2 ≠ spell stem k
  /-- The counter fits in 64 bits when the size fits in 32. -/
  counter : t.size < UInt32.size → t.counter < UInt64.size

/-- The numbers of answers are below the size of the table. -/
theorem Holds.lt_size (h : Holds given t) {a : Nat × Symbol} (ha : a ∈ given) :
  a.1 < t.size
  := (Array.getElem?_eq_some_iff.1 ((h.iff a.1 a.2).2 ha)).1

/-- A spelling that has been in no answer is new. -/
theorem Holds.not_mem (h : Holds given t) (hx : ∀ a ∈ given, a.2 ≠ x) :
  x ∉ t.names
  := by
  intro hmem
  obtain ⟨n, hn⟩ := exists_id? hmem
  exact hx (n, x) ((h.iff n x).1 (name?_of_id? hn)) rfl

/-- A new spelling gets the next number. -/
theorem intern_of_not_mem (hx : x ∉ t.names) :
  t.intern x = (t.size, ⟨t.names.push x, t.counter⟩)
  := by
  have hnone : t.id? x = none := by
    cases h : t.id? x with
    | none => rfl
    | some n => exact absurd (mem_of_name? (name?_of_id? h)) hx
  rw [intern, hnone]

/-- A table that holds its answers is faithful to them. -/
theorem Holds.faithful (h : Holds given t) :
  Faithful given t
  where
  numbers n := by
    simp only [← h.toSound.name?_eq_some_iff]
    constructor
    · rintro ⟨x, hx⟩
      exact (Array.getElem?_eq_some_iff.1 hx).1
    · exact fun hn => ⟨_, Array.getElem?_eq_getElem hn⟩
  inverse n x := h.toSound.name?_eq_some_iff.symm
  held := h.iff
  kept qs a ha := by
    have hmore := h.ask qs
    have hname : (t.ask qs).2.name? a.1 = some a.2 :=
      (hmore.iff a.1 a.2).2 (List.mem_append_left _ ha)
    exact ⟨hname, hmore.toSound.name?_eq_some_iff.1 hname⟩
  known n x hx := by
    rw [intern, h.toSound.name?_eq_some_iff.1 ((h.iff n x).2 hx)]
  unknown x hx := by
    rw [intern_of_not_mem (h.not_mem hx)]
    exact ⟨id?_push (h.not_mem hx) _, fun a ha => Nat.ne_of_lt (h.lt_size ha)⟩
  minted stem := by
    have hnew := t.mint_not_mem stem
    refine ⟨(t.mint stem).2.counter, fun k' => ?_, rfl, rfl, t.size, id?_push hnew _,
      fun a ha => ⟨Nat.ne_of_lt (h.lt_size ha), ?_⟩⟩
    · constructor
      · exact fun hk' => hk'.unique (t.tries_mint stem)
      · rintro rfl
        exact t.tries_mint stem
    · intro hsame
      have hmem := mem_of_name? ((h.iff a.1 a.2).2 ha)
      rw [hsame] at hmem
      exact hnew hmem
  counter hsize := by
    have hcounter := h.counter
    have hbound : t.size * (t.size + 1) ≤ UInt32.size * UInt32.size :=
      Nat.mul_le_mul (Nat.le_of_lt hsize) hsize
    have hsquare : UInt32.size * UInt32.size = UInt64.size := rfl
    have hpositive : 0 < UInt64.size := by decide
    omega

/-- Whatever it is asked, a table is faithful to the answers that it has given. -/
theorem ask_faithful (qs : List Query) :
  Faithful (empty.ask qs).1 (empty.ask qs).2
  := (holds_empty.ask qs).faithful

/-- Spellings that have been given by hand are not minted. -/
example : (empty.ask [.intern "k#1", .mint "k", .intern "k#1", .mint "k"]).1 =
    [(0, "k#1"), (1, "k#2"), (0, "k#1"), (2, "k#3")] := by
  decide +kernel

end SymbolTable

end Skein
