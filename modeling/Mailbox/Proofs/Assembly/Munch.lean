import Mailbox.Assembly.Lexeme
set_option autoImplicit false

/-!
# Maximal munch

A lexeme is as long as its kind allows: its first character decides on the kind, the others go on
with it, and the character behind it does not.  Main statements: every lexeme of a text is such a
lexeme, and text cut into such lexemes is cut as the scan cuts it.
-/

namespace Mailbox.Lexeme

/-- A lexeme in front of some text goes on as long as its kind allows. -/
structure Munched (l : Lexeme) (after : List Char) : Prop where
  starts : l.text.head?.map LexemeKind.ofChar = some l.kind
  goes_on : ∀ c ∈ l.text.tail, l.kind.continues c
  stops : ∀ c ∈ after.head?, l.kind.continues c = false

variable {l : Lexeme} {ls : List Lexeme} {after : List Char}

theorem Munched.exists_cons (h : l.Munched after) :
    ∃ c cs, l.text = c :: cs ∧ LexemeKind.ofChar c = l.kind ∧ ∀ d ∈ cs, l.kind.continues d := by
  obtain ⟨c, hc, hkind⟩ := Option.map_eq_some_iff.1 h.starts
  obtain ⟨cs, hcs⟩ := List.head?_eq_some_iff.1 hc
  refine ⟨c, cs, hcs, hkind, fun d hd => h.goes_on d ?_⟩
  rw [hcs]
  exact hd

theorem eq_nil_of_scan {cs : List Char} (h : scan cs = []) : cs = [] := by
  rw [← flatMap_text_scan cs, h]
  rfl

/-- What the scan finds first, and that it goes on with the text behind it. -/
theorem munched_of_scan {cs : List Char} (h : scan cs = l :: ls) :
    l.Munched (ls.flatMap text) ∧ cs = l.text ++ ls.flatMap text ∧
      scan (ls.flatMap text) = ls := by
  cases cs with
  | nil => exact absurd h (by simp)
  | cons c cs =>
    rw [scan_cons] at h
    obtain ⟨rfl, rfl⟩ := List.cons.inj h
    rw [flatMap_text_scan]
    refine ⟨⟨rfl, fun d hd => ?_, fun d hd => ?_⟩, ?_, rfl⟩
    · exact List.all_eq_true.1 List.all_takeWhile d hd
    · have hnot := List.head?_dropWhile_not (LexemeKind.ofChar c).continues cs
      rw [Option.mem_def.1 hd] at hnot
      simpa using hnot
    · rw [List.cons_append, List.takeWhile_append_dropWhile]

/-- The scan finds a lexeme of this form first. -/
theorem Munched.scan_append (h : l.Munched after) : scan (l.text ++ after) = l :: scan after := by
  obtain ⟨c, cs, htext, hkind, hcs⟩ := h.exists_cons
  have hafter : after.takeWhile l.kind.continues = [] ∧ after.dropWhile l.kind.continues = after := by
    cases after with
    | nil => exact ⟨rfl, rfl⟩
    | cons d ds =>
      have hd := h.stops d rfl
      exact ⟨List.takeWhile_cons_of_neg (by simp [hd]), List.dropWhile_cons_of_neg (by simp [hd])⟩
  rw [htext, List.cons_append, scan_cons, hkind, List.takeWhile_append_of_pos hcs,
    List.dropWhile_append_of_pos hcs, hafter.1, hafter.2, List.append_nil, ← htext]

/-! ## The characters of a lexeme -/

/-- A newline is a lexeme of its own. -/
theorem Munched.text_eq_newline (h : l.Munched after) (hkind : l.kind = .newline) :
    l.text = ['\n'] := by
  obtain ⟨c, cs, htext, hc, hcs⟩ := h.exists_cons
  rw [hkind] at hc hcs
  have hnil : cs = [] := List.eq_nil_iff_forall_not_mem.2 fun d hd =>
    absurd (hcs d hd) (by simp [LexemeKind.continues])
  rw [htext, hnil, LexemeKind.ofChar_eq_newline_iff.1 hc]

/-- No other lexeme has a newline. -/
theorem Munched.newline_not_mem (h : l.Munched after) (hkind : l.kind ≠ .newline) :
    '\n' ∉ l.text := by
  obtain ⟨c, cs, htext, hc, hcs⟩ := h.exists_cons
  rw [htext, List.mem_cons]
  rintro (rfl | hmem)
  · exact hkind (hc.symm.trans (by decide))
  · have hgo := hcs _ hmem
    cases hk : l.kind <;> rw [hk] at hgo <;> exact absurd hgo (by decide)

theorem Munched.count_newline (h : l.Munched after) :
    l.text.count '\n' = if l.kind = .newline then 1 else 0 := by
  split
  · rename_i hkind
    rw [h.text_eq_newline hkind]
    rfl
  · rename_i hkind
    exact List.count_eq_zero_of_not_mem (h.newline_not_mem hkind)

/-- Blanks and words go on with the characters that start them. -/
theorem continues_iff_ofChar {kind : LexemeKind} (h : kind = .blank ∨ kind = .word) (c : Char) :
    kind.continues c ↔ LexemeKind.ofChar c = kind := by
  rcases h with rfl | rfl
  · exact LexemeKind.ofChar_eq_blank_iff.symm
  · exact LexemeKind.ofChar_eq_word_iff.symm

theorem Munched.ofChar_of_mem (h : l.Munched after) (hkind : l.kind = .blank ∨ l.kind = .word)
    {c : Char} (hc : c ∈ l.text) : LexemeKind.ofChar c = l.kind := by
  obtain ⟨d, ds, htext, hd, hds⟩ := h.exists_cons
  rcases List.mem_cons.1 (htext ▸ hc) with rfl | hmem
  · exact hd
  · exact (continues_iff_ofChar hkind c).1 (hds c hmem)

/-! ## Texts cut into lexemes -/

/-- Lexemes in a row make a text, each of them as long as its kind allows. -/
structure Munch (cs : List Char) (ls : List Lexeme) : Prop where
  flatMap_text : ls.flatMap text = cs
  munched : ∀ front l back, ls = front ++ l :: back → l.Munched (back.flatMap text)

theorem munch_scan (cs : List Char) : Munch cs (scan cs) := by
  refine ⟨flatMap_text_scan cs, fun front l back => ?_⟩
  induction front generalizing cs with
  | nil => exact fun h => (munched_of_scan h).1
  | cons m front ih => exact fun h => ih _ (munched_of_scan h).2.2

/-- There is one way only to cut a text into such lexemes. -/
theorem Munch.eq_scan {cs : List Char} (h : Munch cs ls) : ls = scan cs := by
  obtain ⟨rfl, hmunched⟩ := h
  induction ls with
  | nil => simp
  | cons l ls ih =>
    have hrest := ih fun front m back heq => hmunched (l :: front) m back (by rw [heq]; rfl)
    rw [List.flatMap_cons, (hmunched [] l ls rfl).scan_append, ← hrest]

end Mailbox.Lexeme
