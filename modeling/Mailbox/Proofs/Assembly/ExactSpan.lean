import Mailbox.Proofs.Assembly.SourceLine
set_option autoImplicit false

/-!
# Exact spans

What a word of a source is, said of the characters in front of it, in it and behind it, and what it
is for a span to point at source text exactly.  Main statements: exact spans stand in the order of
their lines, words do not overlap, and the span from one word of a line to another is exact.
-/

namespace Mailbox

/-! ## Bytes -/

theorem byteLength_pos {cs : List Char} (h : cs ≠ []) : 0 < byteLength cs := by
  cases cs with
  | nil => exact absurd rfl h
  | cons c cs =>
    rw [byteLength_cons]
    exact Nat.add_pos_left c.utf8Size_pos _

/-- Of two pieces at the start of a text, the one with fewer bytes starts the other. -/
theorem isPrefix_of_byteLength_le {cs ds text : List Char} (hc : cs <+: text) (hd : ds <+: text)
    (hle : byteLength cs ≤ byteLength ds) : cs <+: ds := by
  rcases List.prefix_or_prefix_of_prefix hc hd with h | h
  · exact h
  · obtain ⟨rest, rfl⟩ := h
    rw [byteLength_append] at hle
    cases rest with
    | nil => exact ⟨[], by simp⟩
    | cons c rest =>
      have hpos := byteLength_pos (List.cons_ne_nil c rest)
      omega

/-- A piece at the start of a text is told by its number of bytes. -/
theorem eq_of_byteLength_eq {cs ds text : List Char} (hc : cs <+: text) (hd : ds <+: text)
    (h : byteLength cs = byteLength ds) : cs = ds :=
  (isPrefix_of_byteLength_le hc hd (Nat.le_of_eq h)).eq_of_length_le
    (isPrefix_of_byteLength_le hd hc (Nat.le_of_eq h.symm)).length_le

theorem isValid_byteLength {source : String} {cs ds : List Char}
    (h : source.toList = cs ++ ds) : String.Pos.Raw.IsValid source ⟨byteLength cs⟩ := by
  refine String.Pos.Raw.isValid_iff_exists_append.2 ⟨String.ofList cs, String.ofList ds, ?_, ?_⟩
  · rw [← String.ofList_append, ← h, String.ofList_toList]
  · rw [String.rawEndPos, utf8ByteSize_ofList]

/-! ## Words and spans -/

/-- Some characters, with those in front of them and behind them, are a word: a longest run free of
white space and comment starts, with no comment start in front of it on its line. -/
structure IsWord (before text after : List Char) : Prop where
  ne_nil : text ≠ []
  inner : ∀ c ∈ text, isWordChar c
  left : ∀ c ∈ before.getLast?, isWordChar c = false
  right : ∀ c ∈ after.head?, isWordChar c = false
  code : ∀ c ∈ before.reverse.takeWhile (· != '\n'), isCommentStart c = false

theorem IsWord.newline_not_mem {before text after : List Char} (h : IsWord before text after) :
    '\n' ∉ text :=
  fun hmem => absurd (h.inner _ hmem) (by decide)

namespace Span

/-- A span parts a source: what is in front of it, the text at it, and what is behind it. -/
structure Parts (span : Span) (source : String) (before text after : List Char) : Prop where
  source_eq : source.toList = before ++ text ++ after
  offset_eq : span.offset = byteLength before
  length_eq : span.length = byteLength text

/-- The text of a source at a span. -/
def Reads (span : Span) (source : String) (text : List Char) : Prop :=
  ∃ before after, span.Parts source before text after

/-- A span points exactly at text of a line, from the start of one word to the end of one. -/
structure IsExact (span : Span) (source : String) (line : Nat) : Prop where
  length_pos : 0 < span.length
  stop_le : span.stop ≤ source.utf8ByteSize
  start_isValid : String.Pos.Raw.IsValid source ⟨span.offset⟩
  stop_isValid : String.Pos.Raw.IsValid source ⟨span.stop⟩
  words : ∃ before text after, span.Parts source before text after ∧ '\n' ∉ text ∧
    (∃ word rest, text = word ++ rest ∧ IsWord before word (rest ++ after)) ∧
    (∃ rest word, text = rest ++ word ∧ IsWord (before ++ rest) word after) ∧
    line = 1 + before.count '\n'

theorem join_of_stop_le {s t : Span} (h : s.stop ≤ t.offset) :
    s.join t = ⟨s.offset, t.stop - s.offset⟩ ∧ (s.join t).stop = t.stop := by
  simp only [join, stop, Span.mk.injEq] at *
  omega

section Parts

variable {span : Span} {source : String} {before text after : List Char}

theorem Parts.stop_eq (h : span.Parts source before text after) :
    span.stop = byteLength (before ++ text) := by
  rw [stop, h.offset_eq, h.length_eq, byteLength_append]

theorem Parts.start_isPrefix (h : span.Parts source before text after) :
    before <+: source.toList :=
  ⟨text ++ after, by rw [h.source_eq, List.append_assoc]⟩

theorem Parts.stop_isPrefix (h : span.Parts source before text after) :
    before ++ text <+: source.toList :=
  ⟨after, h.source_eq.symm⟩

/-- Text that words of one line bound is exact. -/
theorem Parts.isExact {line : Nat} (h : span.Parts source before text after) (hn : '\n' ∉ text)
    (hfirst : ∃ word rest, text = word ++ rest ∧ IsWord before word (rest ++ after))
    (hlast : ∃ rest word, text = rest ++ word ∧ IsWord (before ++ rest) word after)
    (hline : line = 1 + before.count '\n') : span.IsExact source line := by
  refine ⟨?_, ?_, ?_, ?_, before, text, after, h, hn, hfirst, hlast, hline⟩
  · obtain ⟨word, rest, rfl, hword⟩ := hfirst
    rw [h.length_eq, byteLength_append]
    exact Nat.add_pos_left (byteLength_pos hword.ne_nil) _
  · have hsize := congrArg byteLength h.source_eq
    rw [byteLength_toList, byteLength_append] at hsize
    rw [h.stop_eq, hsize]
    exact Nat.le_add_right _ _
  · rw [h.offset_eq]
    exact isValid_byteLength (h.source_eq.trans (List.append_assoc ..))
  · rw [h.stop_eq]
    exact isValid_byteLength h.source_eq

end Parts

/-- Exact spans stand in the order of their lines. -/
theorem IsExact.stop_lt {source : String} {s t : Span} {m n : Nat} (hs : s.IsExact source m)
    (ht : t.IsExact source n) (hlt : m < n) : s.stop < t.offset := by
  obtain ⟨before, text, after, hparts, hn, _, _, hm⟩ := hs.words
  obtain ⟨before', _, _, hparts', _, _, _, hn'⟩ := ht.words
  have hcount : (before ++ text).count '\n' < before'.count '\n' := by
    rw [List.count_append, List.count_eq_zero_of_not_mem hn]
    omega
  have hprefix : before ++ text <+: before' := by
    rcases List.prefix_or_prefix_of_prefix hparts.stop_isPrefix hparts'.start_isPrefix with h | h
    · exact h
    · exact absurd (h.sublist.count_le '\n') (Nat.not_le.2 hcount)
  obtain ⟨rest, rfl⟩ := hprefix
  have hrest : rest ≠ [] := by
    rintro rfl
    simp at hcount
  rw [hparts.stop_eq, hparts'.offset_eq, byteLength_append (before ++ text)]
  exact Nat.lt_add_of_pos_right (byteLength_pos hrest)

end Span

namespace SourceWord

/-- A word of a source stands on a line. -/
def StandsOn (w : SourceWord) (source : String) (line : Nat) : Prop :=
  ∃ before after, w.span.Parts source before w.text after ∧ IsWord before w.text after ∧
    line = 1 + before.count '\n'

section StandsOn

variable {source : String} {v w : SourceWord} {m n : Nat}

theorem StandsOn.reads (h : w.StandsOn source n) : w.span.Reads source w.text := by
  obtain ⟨before, after, hparts, _, _⟩ := h
  exact ⟨before, after, hparts⟩

theorem StandsOn.isExact (h : w.StandsOn source n) : w.span.IsExact source n := by
  obtain ⟨before, after, hparts, hword, hline⟩ := h
  refine hparts.isExact hword.newline_not_mem ⟨w.text, [], by simp, by simpa using hword⟩
    ⟨[], w.text, rfl, by simpa using hword⟩ hline

/-- Words do not overlap. -/
theorem StandsOn.stop_le (hv : v.StandsOn source m) (hw : w.StandsOn source n)
    (hlt : v.offset < w.offset) : v.span.stop ≤ w.offset := by
  obtain ⟨before, after, hparts, hword, _⟩ := hv
  obtain ⟨before', after', hparts', hword', _⟩ := hw
  have hoffset : w.offset = byteLength before' := hparts'.offset_eq
  rw [hparts.stop_eq, hoffset]
  refine Nat.le_of_not_lt fun hinside => ?_
  -- The second word would start inside the first, behind one of its characters.
  have hstart : before <+: before' := by
    refine isPrefix_of_byteLength_le hparts.start_isPrefix hparts'.start_isPrefix ?_
    rw [← hparts.offset_eq, ← hoffset]
    exact Nat.le_of_lt hlt
  obtain ⟨inside, rfl⟩ := hstart
  have hprefix : before ++ inside <+: before ++ v.text :=
    isPrefix_of_byteLength_le hparts'.start_isPrefix hparts.stop_isPrefix (Nat.le_of_lt hinside)
  have htext : inside <+: v.text := (List.prefix_append_right_inj before).1 hprefix
  have hne : inside ≠ [] := by
    rintro rfl
    have hsame : v.offset = byteLength before := hparts.offset_eq
    rw [hoffset, hsame, List.append_nil] at hlt
    exact absurd hlt (Nat.lt_irrefl _)
  have hlast : inside.getLast hne ∈ (before ++ inside).getLast? := by
    simp [List.getLast?_eq_some_getLast hne]
  have hleft := hword'.left _ hlast
  rw [hword.inner _ (htext.subset (List.getLast_mem hne))] at hleft
  exact absurd hleft (by simp)

/-- From the start of a word to the end of another on its line. -/
theorem StandsOn.isExact_between (hv : v.StandsOn source n) (hw : w.StandsOn source n)
    (hle : v.span.stop ≤ w.offset) :
    Span.IsExact ⟨v.offset, w.span.stop - v.offset⟩ source n := by
  obtain ⟨before, after, hparts, hword, hline⟩ := hv
  obtain ⟨before', after', hparts', hword', hline'⟩ := hw
  have hprefix : before ++ v.text <+: before' := by
    refine isPrefix_of_byteLength_le hparts.stop_isPrefix hparts'.start_isPrefix ?_
    rw [← hparts.stop_eq, ← hparts'.offset_eq]
    exact hle
  obtain ⟨between, rfl⟩ := hprefix
  have hafter : after = between ++ w.text ++ after' := by
    have hsame := hparts.source_eq.symm.trans hparts'.source_eq
    simpa using hsame
  have hoffset : v.offset = byteLength before := hparts.offset_eq
  have hcount : (v.text ++ between).count '\n' = 0 := by
    have hsame : before.count '\n' = (before ++ v.text ++ between).count '\n' := by omega
    simpa [List.count_append] using hsame
  have hcovered : Span.Parts ⟨v.offset, w.span.stop - v.offset⟩ source before
      (v.text ++ between ++ w.text) after' := by
    refine ⟨by simpa using hparts'.source_eq, hoffset, ?_⟩
    rw [hparts'.stop_eq, hoffset]
    simp only [byteLength_append]
    omega
  refine hcovered.isExact ?_ ⟨v.text, between ++ w.text, by simp, ?_⟩
    ⟨v.text ++ between, w.text, rfl, by simpa using hword'⟩ hline
  · rw [List.mem_append]
    rintro (hmem | hmem)
    · exact List.count_eq_zero.1 hcount hmem
    · exact hword'.newline_not_mem hmem
  · rw [← hafter]
    exact hword

end StandsOn

end SourceWord

end Mailbox
