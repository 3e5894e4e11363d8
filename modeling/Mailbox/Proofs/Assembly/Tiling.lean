import Mathlib.Algebra.GroupWithZero.Nat
import Mailbox.Proofs.Assembly.ExactSpan
set_option autoImplicit false

/-!
# Lexemes tile a source

What lexemes are, told by the characters around them and not by how they are read: a newline, a
comment up to the end of its line, and longest runs of blanks and of word characters.  Main
statements: a source falls into such lexemes in exactly one way, a cursor reads them off one after
the other until nothing is left, and its counts are always those of the text that it has passed.

Normative source: SPEC_FULL.md, section 4.1.
-/

namespace Mailbox

/-- Some characters are a longest run of a class: all are of the class, the characters next to them
are not. -/
structure IsLongestRun (P : Char → Prop) (before text after : List Char) : Prop where
  ne_nil : text ≠ []
  inner : ∀ c ∈ text, P c
  left : ∀ c ∈ before.getLast?, ¬ P c
  right : ∀ c ∈ after.head?, ¬ P c

namespace Lexeme

/-- What a lexeme is between the characters in front of it and those behind it. -/
inductive Stands (before after : List Char) : Lexeme → Prop
  | newline : Stands before after ⟨.newline, ['\n']⟩
  | comment {c : Char} {text : List Char} (hc : c = '#' ∨ c = ';') (htext : '\n' ∉ text)
      (hafter : ∀ d ∈ after.head?, d = '\n') : Stands before after ⟨.comment, c :: text⟩
  | blank {text : List Char}
      (h : IsLongestRun (fun c => Text.isSpace c ∧ c ≠ '\n') before text after) :
      Stands before after ⟨.blank, text⟩
  | word {text : List Char}
      (h : IsLongestRun (fun c => ¬ Text.isSpace c ∧ c ≠ '#' ∧ c ≠ ';') before text after) :
      Stands before after ⟨.word, text⟩

/-- Lexemes tile a text: put together they are the text, and each is a lexeme where it stands. -/
structure Tiles (cs : List Char) (ls : List Lexeme) : Prop where
  flatMap_text : ls.flatMap text = cs
  stands : ∀ front l back, ls = front ++ l :: back →
    Stands (front.flatMap text) (back.flatMap text) l

/-! ## Longest runs and the scan -/

theorem ofChar_eq_blank_iff_isSpace (c : Char) :
    LexemeKind.ofChar c = .blank ↔ Text.isSpace c ∧ c ≠ '\n' := by
  rw [LexemeKind.ofChar_eq_blank_iff, isBlank, Bool.and_eq_true, bne_iff_ne, and_comm]

theorem ofChar_eq_word_iff_not_isSpace (c : Char) :
    LexemeKind.ofChar c = .word ↔ ¬ Text.isSpace c ∧ c ≠ '#' ∧ c ≠ ';' := by
  simp [LexemeKind.ofChar_eq_word_iff, isWordChar, isCommentStart]

theorem ofChar_eq_comment_iff_mark (c : Char) :
    LexemeKind.ofChar c = .comment ↔ c = '#' ∨ c = ';' := by
  simp [LexemeKind.ofChar_eq_comment_iff, isCommentStart]

section Runs

variable {kind : LexemeKind} {P : Char → Prop} {before text after : List Char} {l : Lexeme}

/-- A longest run goes on as long as its kind allows. -/
theorem munched_of_run (hkind : kind = .blank ∨ kind = .word)
    (hP : ∀ c, LexemeKind.ofChar c = kind ↔ P c) (h : IsLongestRun P before text after) :
    Munched ⟨kind, text⟩ after := by
  have hclass : ∀ c, kind.continues c ↔ P c := fun c =>
    (continues_iff_ofChar hkind c).trans (hP c)
  refine ⟨?_, fun c hc => ?_, fun c hc => ?_⟩
  · obtain ⟨c, cs, rfl⟩ := List.exists_cons_of_ne_nil h.ne_nil
    exact congrArg some ((hP c).2 (h.inner c List.mem_cons_self))
  · exact (hclass c).2 (h.inner c (List.mem_of_mem_tail hc))
  · exact Bool.eq_false_iff.2 fun hgo => h.right c hc ((hclass c).1 hgo)

theorem run_of_munched (hkind : kind = .blank ∨ kind = .word)
    (hP : ∀ c, LexemeKind.ofChar c = kind ↔ P c) (h : Munched ⟨kind, text⟩ after)
    (hleft : ∀ c ∈ before.getLast?, LexemeKind.ofChar c ≠ kind) :
    IsLongestRun P before text after := by
  have hclass : ∀ c, kind.continues c ↔ P c := fun c =>
    (continues_iff_ofChar hkind c).trans (hP c)
  refine ⟨?_, fun c hc => ?_, fun c hc => ?_, fun c hc => ?_⟩
  · obtain ⟨c, cs, rfl, _⟩ := h.exists_cons
    exact List.cons_ne_nil c cs
  · exact (hP c).1 (h.ofChar_of_mem hkind hc)
  · exact fun hp => hleft c hc ((hP c).2 hp)
  · exact fun hp => absurd ((hclass c).2 hp) (by simp [h.stops c hc])

theorem Stands.munched (h : Stands before after l) : l.Munched after := by
  cases h with
  | newline => exact ⟨rfl, by simp, fun _ _ => rfl⟩
  | comment hc htext hafter =>
    refine ⟨congrArg some ((ofChar_eq_comment_iff_mark _).2 hc), fun d hd => ?_, fun d hd => ?_⟩
    · exact bne_iff_ne.2 (ne_of_mem_of_not_mem hd htext)
    · rw [hafter d hd]
      rfl
  | blank h => exact munched_of_run (.inl rfl) ofChar_eq_blank_iff_isSpace h
  | word h => exact munched_of_run (.inr rfl) ofChar_eq_word_iff_not_isSpace h

theorem Munched.stands (h : l.Munched after)
    (hleft : l.kind = .blank ∨ l.kind = .word →
      ∀ c ∈ before.getLast?, LexemeKind.ofChar c ≠ l.kind) : Stands before after l := by
  obtain ⟨kind, text⟩ := l
  cases kind with
  | newline =>
    obtain rfl : text = ['\n'] := h.text_eq_newline rfl
    exact .newline
  | comment =>
    have hnewline := h.newline_not_mem (by simp)
    obtain ⟨c, cs, rfl, hc, _⟩ := h.exists_cons
    refine .comment ((ofChar_eq_comment_iff_mark c).1 hc)
      (fun hmem => hnewline (List.mem_cons_of_mem c hmem)) fun d hd => ?_
    simpa [LexemeKind.continues] using h.stops d hd
  | blank =>
    exact .blank (run_of_munched (.inl rfl) ofChar_eq_blank_iff_isSpace h (hleft (.inl rfl)))
  | word =>
    exact .word (run_of_munched (.inr rfl) ofChar_eq_word_iff_not_isSpace h (hleft (.inr rfl)))

/-- A blank or a word does not start behind a character of its own class. -/
theorem Munched.ofChar_getLast_ne {c d : Char} {rest : List Char} (h : l.Munched (c :: rest))
    (hd : d ∈ l.text.getLast?) (hc : LexemeKind.ofChar c = .blank ∨ LexemeKind.ofChar c = .word) :
    LexemeKind.ofChar d ≠ LexemeKind.ofChar c := by
  have hstop : l.kind.continues c = false := h.stops c rfl
  have hmem := List.mem_of_getLast? hd
  intro heq
  cases hkind : l.kind with
  | newline =>
    rw [h.text_eq_newline hkind] at hmem
    obtain rfl := List.mem_singleton.1 hmem
    rw [← heq] at hc
    exact absurd hc (by decide)
  | comment =>
    -- Only a newline stops a comment.
    rw [hkind] at hstop
    obtain rfl : c = '\n' := by simpa [LexemeKind.continues] using hstop
    exact absurd hc (by decide)
  | blank | word =>
    have hrun : l.kind = .blank ∨ l.kind = .word := by simp [hkind]
    have hgo := (continues_iff_ofChar hrun c).2 (heq.symm.trans (h.ofChar_of_mem hrun hmem))
    exact absurd hgo (by simp [hstop])

end Runs

/-- The characters in front of a lexeme end with those of the lexeme before it. -/
theorem Munch.stands {cs : List Char} {ls front back : List Lexeme} {l : Lexeme} (h : Munch cs ls)
    (heq : ls = front ++ l :: back) : Stands (front.flatMap text) (back.flatMap text) l := by
  have hl := h.munched front l back heq
  refine hl.stands fun hrun d hd => ?_
  obtain ⟨c, rest, htext, hc, _⟩ := hl.exists_cons
  rcases List.eq_nil_or_concat front with rfl | ⟨front, m, rfl⟩
  · exact absurd hd (by simp)
  · rw [List.concat_eq_append] at heq hd
    have hm := h.munched front m (l :: back) (by rw [heq, List.append_assoc, List.singleton_append])
    rw [List.flatMap_cons, htext, List.cons_append] at hm
    have hlast : d ∈ m.text.getLast? := by
      obtain ⟨e, es, hmtext, _⟩ := hm.exists_cons
      rw [List.flatMap_append, List.flatMap_singleton, List.getLast?_append, hmtext,
        List.getLast?_cons, Option.some_or] at hd
      rwa [hmtext, List.getLast?_cons]
    rw [← hc] at hrun ⊢
    exact hm.ofChar_getLast_ne hlast hrun

/-- Lexemes tile a text if each of them goes on as long as its kind allows. -/
theorem tiles_iff_munch (cs : List Char) (ls : List Lexeme) : Tiles cs ls ↔ Munch cs ls :=
  ⟨fun h => ⟨h.flatMap_text, fun front l back heq => (h.stands front l back heq).munched⟩,
    fun h => ⟨h.flatMap_text, fun _ _ _ heq => h.stands heq⟩⟩

theorem tiles_scan (cs : List Char) : Tiles cs (scan cs) :=
  (tiles_iff_munch cs _).2 (munch_scan cs)

/-- There is one way only to tile a text. -/
theorem Tiles.eq_scan {cs : List Char} {ls : List Lexeme} (h : Tiles cs ls) : ls = scan cs :=
  ((tiles_iff_munch cs ls).1 h).eq_scan

end Lexeme

namespace Cursor

/-! ## Reading lexemes off -/

/-- The cursor after a number of lexemes were read, or tried at the end of the source. -/
def afterLexemes (source : String) : Nat → Cursor
  | 0 => start source
  | n + 1 => (afterLexemes source n).advance.2

/-- Lexemes are read off a source: what is told of each of them, in order, and nothing ever again
behind the last; their bytes, which are those of the source; their text, cut out of the source where
they were read; and the counts of the cursor between them. -/
structure ReadsOff (source : String) (ls : List Lexeme) : Prop where
  advance_eq : ∀ n, (afterLexemes source n).advance.1 = ls[n]?.map Lexeme.stretch
  length_pos : ∀ l ∈ ls, 0 < l.stretch.length
  sum_length : (ls.map fun l => l.stretch.length).sum = source.utf8ByteSize
  reads : ∀ n l, ls[n]? = some l →
    Span.Reads ⟨(afterLexemes source n).offset, l.stretch.length⟩ source l.text
  line_eq : ∀ n, (afterLexemes source n).line = 1 + ((ls.take n).flatMap Lexeme.text).count '\n'
  offset_eq : ∀ n,
    (afterLexemes source n).offset = ((ls.take n).map fun l => l.stretch.length).sum

/-- The places that a cursor comes to from the start of a source, by its operations in any order. -/
inductive Reached (source : String) : Cursor → Prop
  | start : Reached source (start source)
  | bump {c : Cursor} (h : Reached source c) : Reached source c.bump.2
  | takeWhile {c : Cursor} (h : Reached source c) (p : Char → Bool) : Reached source (c.takeWhile p)
  | beginLexeme {c : Cursor} (h : Reached source c) : Reached source c.beginLexeme
  | advance {c : Cursor} (h : Reached source c) : Reached source c.advance.2

/-- The counts of a cursor are those of the text that it has passed. -/
def CountsPassed (c : Cursor) (source : String) : Prop :=
  ∃ passed, source.toList = passed ++ c.rest ∧ c.line = 1 + passed.count '\n' ∧
    c.offset = byteLength passed

theorem StandsAt.countsPassed {c : Cursor} {source : String} {before inside : List Char}
    (h : c.StandsAt source before inside) : c.CountsPassed source :=
  ⟨before ++ inside, h.chars_eq, h.line_eq, h.offset_eq⟩

theorem Reached.exists_standsAt {c : Cursor} {source : String} (h : Reached source c) :
    ∃ before inside, c.StandsAt source before inside := by
  induction h with
  | start => exact ⟨[], [], standsAt_start source⟩
  | @bump c _ ih =>
    obtain ⟨before, inside, hc⟩ := ih
    cases hrest : c.rest with
    | nil =>
      rw [bump_of_nil hrest]
      exact ⟨before, inside, hc⟩
    | cons x rest => exact ⟨_, _, hc.bump hrest⟩
  | takeWhile _ p ih =>
    obtain ⟨before, inside, hc⟩ := ih
    exact ⟨_, _, hc.takeWhile p⟩
  | beginLexeme _ ih =>
    obtain ⟨before, inside, hc⟩ := ih
    exact ⟨_, _, hc.beginLexeme⟩
  | @advance c _ ih =>
    obtain ⟨before, inside, hc⟩ := ih
    cases hrest : c.rest with
    | nil =>
      rw [advance_of_nil hrest]
      exact ⟨before, inside, hc⟩
    | cons x rest => exact ⟨_, _, (hc.advance hrest).2.1⟩

/-- After a number of lexemes, the cursor stands behind as many lexemes of the scan. -/
theorem standsAt_afterLexemes (source : String) (n : Nat) :
    (afterLexemes source n).StandsAt source
        (((Lexeme.scan source.toList).take n).flatMap Lexeme.text) [] ∧
      Lexeme.scan (afterLexemes source n).rest = (Lexeme.scan source.toList).drop n := by
  induction n with
  | zero => exact ⟨standsAt_start source, rfl⟩
  | succ n ih =>
    obtain ⟨hstands, hrest⟩ := ih
    rw [afterLexemes]
    cases hdrop : (Lexeme.scan source.toList).drop n with
    | nil =>
      have hlength := List.drop_eq_nil_iff.1 hdrop
      rw [advance_of_nil (Lexeme.eq_nil_of_scan (hrest.trans hdrop))]
      rw [List.take_of_length_le hlength] at hstands
      rw [List.take_of_length_le (Nat.le_succ_of_le hlength),
        List.drop_of_length_le (Nat.le_succ_of_le hlength), ← hdrop]
      exact ⟨hstands, hrest⟩
    | cons l ls =>
      obtain ⟨_, hnext, hscan⟩ := hstands.advance_of_scan (hrest.trans hdrop)
      have hget : (Lexeme.scan source.toList)[n]? = some l := by
        rw [← List.head?_drop, hdrop]
        rfl
      rw [List.take_add_one, hget, Option.toList_some, List.flatMap_append, List.flatMap_singleton]
      refine ⟨hnext, ?_⟩
      rw [hscan, ← List.tail_drop, hdrop]
      rfl

/-- Lengths of lexemes add up to the bytes of their text. -/
theorem sum_length_stretch (ls : List Lexeme) :
    (ls.map fun l => l.stretch.length).sum = byteLength (ls.flatMap Lexeme.text) := by
  induction ls with
  | nil => rfl
  | cons l ls ih =>
    rw [List.map_cons, List.sum_cons, ih, List.flatMap_cons, byteLength_append]
    rfl

theorem readsOff_scan (source : String) : ReadsOff source (Lexeme.scan source.toList) where
  advance_eq n := by
    obtain ⟨hstands, hrest⟩ := standsAt_afterLexemes source n
    rw [← List.head?_drop, ← hrest]
    cases hscan : Lexeme.scan (afterLexemes source n).rest with
    | nil =>
      rw [advance_of_nil (Lexeme.eq_nil_of_scan hscan)]
      rfl
    | cons l ls => exact (hstands.advance_of_scan hscan).1
  length_pos l hl := by
    obtain ⟨front, back, hsplit⟩ := List.append_of_mem hl
    have hmunched := (Lexeme.munch_scan source.toList).munched front l back hsplit
    obtain ⟨c, cs, htext, _⟩ := hmunched.exists_cons
    exact byteLength_pos (htext ▸ List.cons_ne_nil c cs)
  sum_length := by
    rw [sum_length_stretch, Lexeme.flatMap_text_scan, byteLength_toList]
  reads n l hl := by
    obtain ⟨hstands, hrest⟩ := standsAt_afterLexemes source n
    rw [← List.head?_drop, ← hrest] at hl
    obtain ⟨ls, hscan⟩ := List.head?_eq_some_iff.1 hl
    obtain ⟨_, hchars, _⟩ := Lexeme.munched_of_scan hscan
    have hsource := hstands.chars_eq
    rw [hchars, ← List.append_assoc _ l.text] at hsource
    exact ⟨_, _, hsource, hstands.offset_eq, rfl⟩
  line_eq n := by
    have hline := (standsAt_afterLexemes source n).1.line_eq
    rwa [List.append_nil] at hline
  offset_eq n := by
    rw [(standsAt_afterLexemes source n).1.offset_eq, List.append_nil, sum_length_stretch]

/-- The lexemes that are read off a source tile it, no others do, and the cursor keeps its counts
right wherever it comes to. -/
theorem lexemes_tile_source (source : String) :
    ∃ ls : List Lexeme, Lexeme.Tiles source.toList ls ∧
      (∀ others, Lexeme.Tiles source.toList others → others = ls) ∧ ReadsOff source ls ∧
      ∀ c, Reached source c → c.CountsPassed source := by
  refine ⟨Lexeme.scan source.toList, Lexeme.tiles_scan _, fun others h => h.eq_scan,
    readsOff_scan source, fun c hc => ?_⟩
  obtain ⟨before, inside, hstands⟩ := hc.exists_standsAt
  exact hstands.countsPassed

/-- A word that starts with the end mark, with a comment right behind it. -/
example : (List.range 5).map (fun n => (afterLexemes "\x00é;a\n" n).advance.1) =
    [some ⟨.word, 3⟩, some ⟨.comment, 2⟩, some ⟨.newline, 1⟩, none, none] := by
  decide +kernel

end Cursor

end Mailbox
