import Mailbox.Proofs.Assembly.Parsing
set_option autoImplicit false

/-!
# Lines that are written

What is read from a text that is put together from lines, and from a line that is put together from
words.  Main statements: identifiers and literals, alone or with a space between them, are the
words of the line they make, and the lines of a text are those it was joined from.
-/

namespace Mailbox

/-! ## Characters of words -/

theorem isSpace_eq_false {c : Char} (hl : 33 ≤ c.toNat) (hu : c.toNat ≤ 132) :
    Text.isSpace c = false := by
  rw [Bool.eq_false_iff]
  intro hs
  obtain ⟨r, hr, hin⟩ := List.any_eq_true.1 hs
  simp only [Bool.and_eq_true, decide_eq_true_eq] at hin
  have hout : ∀ r ∈ Text.spaceRanges, r.2 < 33 ∨ 132 < r.1 := by decide
  have hr := hout r hr
  omega

theorem isWordChar_of_isAlphanum {c : Char} (h : c.isAlphanum) : isWordChar c := by
  have hrange : (65 ≤ c.toNat ∧ c.toNat ≤ 90) ∨ (97 ≤ c.toNat ∧ c.toNat ≤ 122) ∨
      48 ≤ c.toNat ∧ c.toNat ≤ 57 := by
    rcases Bool.or_eq_true_iff.1 h with halpha | hdigit
    · rcases Bool.or_eq_true_iff.1 halpha with hupper | hlower
      · obtain ⟨hl, hu⟩ := of_decide_eq_true hupper
        exact Or.inl ⟨UInt32.le_iff_toNat_le.1 hl, UInt32.le_iff_toNat_le.1 hu⟩
      · obtain ⟨hl, hu⟩ := Bool.and_eq_true_iff.1 hlower
        exact Or.inr (Or.inl ⟨UInt32.le_iff_toNat_le.1 (of_decide_eq_true hl),
          UInt32.le_iff_toNat_le.1 (of_decide_eq_true hu)⟩)
    · obtain ⟨hl, hu⟩ := Bool.and_eq_true_iff.1 hdigit
      exact Or.inr (Or.inr ⟨UInt32.le_iff_toNat_le.1 (of_decide_eq_true hl),
        UInt32.le_iff_toNat_le.1 (of_decide_eq_true hu)⟩)
  have hspace : Text.isSpace c = false := isSpace_eq_false (by omega) (by omega)
  have hcomment : isCommentStart c = false := by
    have hash : c ≠ '#' := by
      rintro rfl
      exact absurd h (by decide)
    have semicolon : c ≠ ';' := by
      rintro rfl
      exact absurd h (by decide)
    simp [isCommentStart, hash, semicolon]
  simp [isWordChar, hspace, hcomment]

theorem isWordChar_of_isDigit {c : Char} (h : c.isDigit) : isWordChar c :=
  isWordChar_of_isAlphanum (by simp [Char.isAlphanum, h])

theorem isSpace_of_isWordChar {c : Char} (h : isWordChar c) : Text.isSpace c = false := by
  have hboth := Bool.and_eq_true_iff.1 h
  simpa using hboth.1

/-- No word breaks a line. -/
theorem newline_not_mem_of_isWordChar {cs : List Char} (h : ∀ c ∈ cs, isWordChar c) :
    '\n' ∉ cs :=
  fun hmem => absurd (h _ hmem) (by decide)

theorem newline_not_mem_pair {cs ds : List Char} (hc : ∀ c ∈ cs, isWordChar c)
    (hd : ∀ d ∈ ds, isWordChar d) : '\n' ∉ cs ++ ' ' :: ds := by
  rw [List.mem_append, List.mem_cons]
  rintro (hmem | hspace | hmem)
  · exact newline_not_mem_of_isWordChar hc hmem
  · exact absurd hspace (by decide)
  · exact newline_not_mem_of_isWordChar hd hmem

namespace Grammar

theorem IsInner.isWordChar {c : Char} (h : IsInner c) : Mailbox.isWordChar c := by
  rcases h with h | rfl
  · exact isWordChar_of_isAlphanum h
  · decide

theorem IsIdentifier.isWordChar {cs : List Char} (h : IsIdentifier cs) :
    ∀ c ∈ cs, Mailbox.isWordChar c := by
  intro c hc
  exact ((isInner_iff c).2 (List.all_eq_true.1 h.all_isIdentifierChar c hc)).isWordChar

theorem IsIdentifier.ne_nil {cs : List Char} (h : IsIdentifier cs) : cs ≠ [] := by
  obtain ⟨c, ds, rfl, _, _⟩ := h
  exact List.cons_ne_nil c ds

theorem IsNumber.isWordChar {cs : List Char} {n : Nat} (h : IsNumber cs n) :
    ∀ c ∈ cs, Mailbox.isWordChar c :=
  fun c hc => isWordChar_of_isDigit (h.2.1 c hc)

theorem IsLiteral.isWordChar {cs : List Char} {value : Word} (h : IsLiteral cs value) :
    ∀ c ∈ cs, Mailbox.isWordChar c := by
  cases h with
  | unsigned hn _ => exact hn.isWordChar
  | plus hn _ => exact List.forall_mem_cons.2 ⟨by decide, hn.isWordChar⟩
  | minus hn _ => exact List.forall_mem_cons.2 ⟨by decide, hn.isWordChar⟩

theorem IsCount.isWordChar {cs : List Char} {n : Nat} (h : IsCount cs n) :
    ∀ c ∈ cs, Mailbox.isWordChar c := by
  cases h with
  | unsigned hn _ => exact hn.isWordChar
  | plus hn _ => exact List.forall_mem_cons.2 ⟨by decide, hn.isWordChar⟩

theorem IsLiteral.ne_nil {cs : List Char} {value : Word} (h : IsLiteral cs value) : cs ≠ [] := by
  rintro rfl
  exact absurd h.startsNumeral (by decide)

end Grammar

theorem isName_of_isLabelName {name : String} (h : isLabelName name) :
    Grammar.IsName name.toList := by
  rw [← String.ofList_toList (s := name)] at h
  exact (Grammar.isLabelName_iff _).1 h

namespace SourceLine

/-! ## Words of a line -/

theorem wordsOf_place {cs : List Char} (hne : cs ≠ []) (h : ∀ c ∈ cs, isWordChar c)
    (offset : Nat) : wordsOf (place offset cs) = [⟨cs, offset⟩] := by
  obtain ⟨c, ds, rfl⟩ := List.exists_cons_of_ne_nil hne
  have hword : wordsOf (place offset (c :: ds) ++ []) =
      SourceWord.ofPlaced (place offset (c :: ds)) :: wordsOf [] :=
    wordsOf_append_of_isWordChar (by simp)
      (forall_place (P := fun d => isWordChar d) h offset) (by simp)
  rw [List.append_nil, SourceWord.ofPlaced_place] at hword
  exact hword

theorem wordsOf_place_pair {cs ds : List Char} (hcs : cs ≠ []) (hds : ds ≠ [])
    (hc : ∀ c ∈ cs, isWordChar c) (hd : ∀ d ∈ ds, isWordChar d) (offset : Nat) :
    wordsOf (place offset (cs ++ ' ' :: ds)) =
      [⟨cs, offset⟩, ⟨ds, offset + byteLength cs + ' '.utf8Size⟩] := by
  obtain ⟨c, rest, rfl⟩ := List.exists_cons_of_ne_nil hcs
  have hsecond : wordsOf (place (offset + byteLength (c :: rest)) (' ' :: ds)) =
      wordsOf (place (offset + byteLength (c :: rest) + ' '.utf8Size) ds) :=
    wordsOf_append_of_isSpace
      (List.forall_mem_singleton.2 (show Text.isSpace ' ' = true by decide)) _
  rw [wordsOf_place hds hd] at hsecond
  have hfirst : wordsOf (place offset (c :: rest) ++
        place (offset + byteLength (c :: rest)) (' ' :: ds)) =
      SourceWord.ofPlaced (place offset (c :: rest)) ::
        wordsOf (place (offset + byteLength (c :: rest)) (' ' :: ds)) :=
    wordsOf_append_of_isWordChar (by simp)
      (forall_place (P := fun d => isWordChar d) hc offset) (by simp; decide)
  rw [SourceWord.ofPlaced_place] at hfirst
  rw [place_append, hfirst]
  exact congrArg _ hsecond

/-! ## Lines of a text -/

/-- A line is the words of some characters, wherever they stand. -/
def IsOf (line : SourceLine) (cs : List Char) : Prop :=
  ∃ number offset, line = ⟨number, wordsOf (place offset cs)⟩

theorem forall₂_separated_intercalate {ls : List (List Char)} (hne : ls ≠ [])
    (h : ∀ l ∈ ls, '\n' ∉ l) (offset : Nat) :
    List.Forall₂ (fun piece l => ∃ o, piece = place o l)
      (Text.separated (fun p => p.char == '\n') (place offset (List.intercalate ['\n'] ls)))
      ls := by
  induction ls generalizing offset with
  | nil => exact absurd rfl hne
  | cons l ls ih =>
    have hl : ∀ p ∈ place offset l, (p.char == '\n') = false :=
      forall_place (P := fun c => (c == '\n') = false)
        (fun c hc => beq_eq_false_iff_ne.2 fun heq => h l List.mem_cons_self (heq ▸ hc)) offset
    cases ls with
    | nil =>
      rw [List.intercalate_singleton]
      have hall : Text.separated (fun p => p.char == '\n') (place offset l ++ []) =
          [place offset l ++ []] := Text.separated_append hl rfl
      rw [List.append_nil] at hall
      rw [hall]
      exact .cons ⟨offset, rfl⟩ .nil
    | cons k ls =>
      have hrest := ih (List.cons_ne_nil k ls) (fun l' hl' => h l' (List.mem_cons_of_mem l hl'))
        (offset + byteLength l + '\n'.utf8Size)
      have hbreak : Text.separated (fun p : PlacedChar => p.char == '\n')
            (place (offset + byteLength l) ('\n' :: List.intercalate ['\n'] (k :: ls))) =
          [] :: Text.separated (fun p => p.char == '\n')
            (place (offset + byteLength l + '\n'.utf8Size)
              (List.intercalate ['\n'] (k :: ls))) := rfl
      rw [List.intercalate_cons_cons, List.append_assoc, place_append, List.singleton_append,
        Text.separated_append hl hbreak, List.append_nil]
      exact .cons ⟨offset, rfl⟩ hrest

theorem forall₂_isOf_zipIdx {pieces : List (List PlacedChar)} {ls : List (List Char)}
    (h : List.Forall₂ (fun piece l => ∃ o, piece = place o l) pieces ls) (number : Nat) :
    List.Forall₂ IsOf ((pieces.zipIdx number).map fun line => ⟨line.2, wordsOf line.1⟩) ls := by
  induction h generalizing number with
  | nil => exact .nil
  | cons hpiece _ ih =>
    obtain ⟨o, rfl⟩ := hpiece
    exact .cons ⟨number, o, rfl⟩ (ih (number + 1))

/-- The lines of a text are those it was joined from. -/
theorem forall₂_isOf_all {ls : List String} (hne : ls ≠ []) (h : ∀ l ∈ ls, '\n' ∉ l.toList) :
    List.Forall₂ IsOf (all ("\n".intercalate ls)) (ls.map String.toList) := by
  unfold all
  rw [String.toList_intercalate]
  apply forall₂_isOf_zipIdx
  apply forall₂_separated_intercalate (by simpa using hne)
  intro cs hcs
  obtain ⟨l, hl, rfl⟩ := List.mem_map.1 hcs
  exact h l hl

end SourceLine

end Mailbox
