import Skein.Proofs.Lexing
import Skein.Value.Text

/-!
# Printed strings

The text of a string is scanned to one string.  The scanner undoes the escapes of quotes,
backslashes, line breaks and tabs, and of every other escape it drops the backslash and keeps the
rest: a null character comes back as the digit that its escape ends in, and a character that is
printed by its code point comes back as the letters and digits of that escape.

So a string comes back as itself when it has none of these characters, and only then, although
every string is the contents of some text.
-/

namespace Skein.Source

variable {c : Char} {cs s cs' s' : List Char}

/-- What a character of a string comes back as when the string is printed and scanned. -/
def reread (c : Char) : List Char :=
  if Text.escapeChar c = [c] ∨ c ∈ ['"', '\\', '\n', '\r', '\t'] then [c]
  else (Text.escapeChar c).tail

/-! ### Contents -/

/-- The contents of strings are put together. -/
theorem Contents.append (h : Contents cs s) (h' : Contents cs' s') :
  Contents (cs ++ cs') (s ++ s')
  := by
  induction h with
  | nil => exact h'
  | plain hquote hescape _ ih => exact .plain hquote hescape ih
  | escape c _ ih => exact .escape c ih

/-- Characters without quotes and backslashes stand for themselves. -/
theorem Contents.verbatim (h : ∀ c ∈ cs, c ≠ '"' ∧ c ≠ '\\') :
  Contents cs cs
  := by
  induction cs with
  | nil => exact .nil
  | cons c cs ih =>
    obtain ⟨⟨hquote, hescape⟩, hcs⟩ := List.forall_mem_cons.1 h
    exact .plain hquote hescape (ih hcs)

/-- With a backslash before its quotes and backslashes, a string stands between quotes. -/
theorem exists_contents_of (s : List Char) :
  ∃ cs, Contents cs s
  := by
  induction s with
  | nil => exact ⟨[], .nil⟩
  | cons c s ih =>
    obtain ⟨cs, h⟩ := ih
    by_cases hc : c = '"' ∨ c = '\\'
    · refine ⟨'\\' :: c :: cs, ?_⟩
      have hself : stringBody.unescape c = c := by rcases hc with rfl | rfl <;> rfl
      have hescape := Contents.escape c h
      rwa [hself] at hescape
    · obtain ⟨hquote, hescape⟩ := not_or.1 hc
      exact ⟨c :: cs, .plain hquote hescape h⟩

/-- Contents between quotes are scanned to one string. -/
theorem scan_string (h : Contents cs s) :
  scan (String.ofList ('"' :: (cs ++ ['"']))) = ([⟨.start, .string (String.ofList s)⟩], none)
  := by
  have hspelled : Token.Spelled [] [] (.string (String.ofList s)) ('"' :: (cs ++ ['"'])) := .string h
  have hscan := hspelled.scan .start
  rw [List.append_nil, scanFrom_nil, List.append_nil] at hscan
  rw [scan, String.toList_ofList]
  exact hscan

/-- Every string is the contents of some text. -/
theorem exists_scan (s : String) :
  ∃ source, scan source = ([⟨.start, .string s⟩], none)
  := by
  obtain ⟨cs, h⟩ := exists_contents_of s.toList
  have hscan := scan_string h
  rw [String.ofList_toList] at hscan
  exact ⟨_, hscan⟩

/-! ### Escapes -/

/-- A number is written with digits. -/
theorem exists_digitChar {n : Nat} (h : c ∈ Nat.toDigits 16 n) :
  ∃ d, c = Nat.digitChar d
  := by
  induction n using Nat.strongRecOn with
  | ind n ih =>
    rcases Nat.lt_or_ge n 16 with hn | hn
    · rw [Nat.toDigits_of_lt_base hn] at h
      exact ⟨n, List.mem_singleton.1 h⟩
    · rw [Nat.toDigits_of_base_le (by decide) hn, List.mem_append] at h
      rcases h with h | h
      · exact ih (n / 16) (by omega) h
      · exact ⟨n % 16, List.mem_singleton.1 h⟩

/-- The escape of a character by its code point has no other escape in it. -/
theorem hexadecimal_verbatim (n : Nat) :
  ∀ c ∈ '\x7b' :: (Text.hexadecimal n ++ ['\x7d']), c ≠ '"' ∧ c ≠ '\\'
  := by
  refine List.forall_mem_cons.2 ⟨by decide, List.forall_mem_append.2 ⟨fun c hc => ?_, ?_⟩⟩
  · obtain ⟨d, rfl⟩ := exists_digitChar hc
    exact ⟨Nat.digitChar_ne _ (by decide), Nat.digitChar_ne _ (by decide)⟩
  · exact List.forall_mem_singleton.2 (by decide)

/-- An escape that the scanner does not know is a backslash and characters that it keeps. -/
theorem escapeChar_of_unknown (hself : Text.escapeChar c ≠ [c])
    (hknown : c ∉ ['"', '\\', '\n', '\r', '\t']) :
  ∃ e es, Text.escapeChar c = '\\' :: e :: es ∧ stringBody.unescape e = e ∧
    (∀ d ∈ es, d ≠ '"' ∧ d ≠ '\\') ∧ e :: es ≠ [c]
  := by
  simp only [List.mem_cons, List.not_mem_nil, or_false, not_or] at hknown
  obtain ⟨h₁, h₂, h₃, h₄, h₅⟩ := hknown
  unfold Text.escapeChar at hself ⊢
  rw [if_neg h₁, if_neg h₂, if_neg h₃, if_neg h₄, if_neg h₅] at hself ⊢
  split_ifs at hself ⊢ with hplain hnull hmark
  · exact absurd rfl hself
  · refine ⟨'0', [], rfl, rfl, nofun, ?_⟩
    rintro ⟨⟩
    exact absurd hnull (by decide)
  · exact ⟨'u', _, rfl, rfl, hexadecimal_verbatim c.toNat, nofun⟩
  · exact absurd rfl hself

/-- A character is printed as the contents of what it comes back as. -/
theorem contents_escapeChar (c : Char) :
  Contents (Text.escapeChar c) (reread c)
  := by
  unfold reread
  split_ifs with h
  · rcases h with hself | hknown
    · rw [hself]
      refine .verbatim (List.forall_mem_singleton.2 ⟨?_, ?_⟩) <;>
        · rintro rfl
          cases hself
    · obtain ⟨e, hescape, he⟩ := exists_unescape hknown
      have hcontents := Contents.escape e .nil
      rwa [he, ← hescape] at hcontents
  · obtain ⟨hself, hknown⟩ := not_or.1 h
    obtain ⟨e, es, hescape, he, hverbatim, -⟩ := escapeChar_of_unknown hself hknown
    have hcontents := Contents.escape e (.verbatim hverbatim)
    rw [he] at hcontents
    rwa [hescape, List.tail_cons]

/-- Characters are printed as the contents of what they come back as. -/
theorem contents_escapeChars (s : List Char) :
  Contents (s.flatMap Text.escapeChar) (s.flatMap reread)
  := by
  induction s with
  | nil => exact .nil
  | cons c s ih => exact (contents_escapeChar c).append ih

/-! ### What comes back -/

/-- Something comes back of every character. -/
theorem reread_ne_nil (c : Char) :
  reread c ≠ []
  := by
  unfold reread
  split_ifs with h
  · exact List.cons_ne_nil c []
  · obtain ⟨hself, hknown⟩ := not_or.1 h
    obtain ⟨e, es, hescape, -⟩ := escapeChar_of_unknown hself hknown
    rw [hescape]
    exact List.cons_ne_nil e es

/-- A character comes back as itself when it is printed as itself or with an escape that the
scanner knows, and only then. -/
theorem reread_eq_self_iff :
  reread c = [c] ↔ Text.escapeChar c = [c] ∨ c ∈ ['"', '\\', '\n', '\r', '\t']
  := by
  refine ⟨fun hself => ?_, fun h => if_pos h⟩
  by_contra h
  rw [reread, if_neg h] at hself
  obtain ⟨hplain, hknown⟩ := not_or.1 h
  obtain ⟨e, es, hescape, -, -, hne⟩ := escapeChar_of_unknown hplain hknown
  rw [hescape, List.tail_cons] at hself
  exact hne hself

/-- When something comes of every element, all of it is the list itself only if every element
comes as itself. -/
theorem flatMap_eq_self_iff {α : Type} {f : α → List α} (hf : ∀ a, f a ≠ []) {as : List α} :
  as.flatMap f = as ↔ ∀ a ∈ as, f a = [a]
  := by
  have hlength : ∀ as : List α, as.length ≤ (as.flatMap f).length := by
    intro as
    induction as with
    | nil => exact Nat.le_refl 0
    | cons a as ih =>
      have hpos := List.length_pos_iff.2 (hf a)
      rw [List.flatMap_cons, List.length_append, List.length_cons]
      omega
  induction as with
  | nil => exact ⟨fun _ => nofun, fun _ => rfl⟩
  | cons a as ih =>
    rw [List.flatMap_cons, List.forall_mem_cons]
    constructor
    · intro h
      obtain ⟨b, bs, hb⟩ := List.exists_cons_of_ne_nil (hf a)
      have hrest := hlength as
      rw [hb, List.cons_append] at h
      obtain ⟨rfl, htail⟩ := List.cons.inj h
      have hnil : bs = [] := by
        have hsum := congrArg List.length htail
        rw [List.length_append] at hsum
        exact List.length_eq_zero_iff.1 (by omega)
      rw [hnil, List.nil_append] at htail
      exact ⟨hb.trans (by rw [hnil]), ih.1 htail⟩
    · rintro ⟨ha, has⟩
      rw [ha, ih.2 has, List.singleton_append]

/-- A printed string is scanned to one string, at its start.  The contents of that are what its
characters come back as; they are the string itself exactly when every character of it is printed
as itself or with one of the escapes of quotes, backslashes, line breaks and tabs.  Yet every
string is the contents of some text. -/
theorem scan_printed (s : String) (heap : Heap) :
  (∃ text, (Value.scalar (.string s)).text? heap = some text ∧
    scan text = ([⟨.start, .string (String.ofList (s.toList.flatMap reread))⟩], none)) ∧
  (String.ofList (s.toList.flatMap reread) = s ↔
    ∀ c ∈ s.toList, Text.escapeChar c = [c] ∨ c ∈ ['"', '\\', '\n', '\r', '\t']) ∧
  ∃ source, scan source = ([⟨.start, .string s⟩], none)
  := by
  refine ⟨⟨Text.quoted s, rfl, ?_⟩, ?_, exists_scan s⟩
  · exact scan_string (contents_escapeChars s.toList)
  · have hlist : String.ofList (s.toList.flatMap reread) = s ↔
        s.toList.flatMap reread = s.toList := by
      rw [← String.toList_inj, String.toList_ofList]
    rw [hlist, flatMap_eq_self_iff reread_ne_nil]
    simp only [reread_eq_self_iff]

end Skein.Source
