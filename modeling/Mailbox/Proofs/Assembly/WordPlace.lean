import Mailbox.Proofs.Assembly.ExactSpan
import Mailbox.Proofs.Assembly.Grammar
import Mathlib.Data.List.Pairwise
set_option autoImplicit false

/-!
# Where words stand

Splitting a source at newlines and a line at white space leaves the pieces where they were.  Main
statements: the words of the lines of a source are words of it, on the line that the newlines in
front of them count, they stand one behind the other, and what a line covers is exact.
-/

namespace Mailbox

/-! ## Pieces of a list -/

namespace Text

variable {α : Type} {isSeparator : α → Bool}

/-- Some elements, with those in front of them and behind them, are what separators part. -/
structure IsPiece (isSeparator : α → Bool) (before piece after : List α) : Prop where
  inner : ∀ x ∈ piece, isSeparator x = false
  left : ∀ x ∈ before.getLast?, isSeparator x
  right : ∀ x ∈ after.head?, isSeparator x

/-- Piece `n` of a list has `n` separators in front of it. -/
theorem exists_isPiece {xs piece : List α} {n : Nat}
    (h : (separated isSeparator xs)[n]? = some piece) :
    ∃ before after, xs = before ++ piece ++ after ∧ IsPiece isSeparator before piece after ∧
      before.countP isSeparator = n := by
  induction xs generalizing n piece with
  | nil =>
    obtain ⟨rfl, rfl⟩ : n = 0 ∧ piece = [] := by
      cases n <;> simp_all
    exact ⟨[], [], rfl, ⟨by simp, by simp, by simp⟩, rfl⟩
  | cons x xs ih =>
    rw [separated_cons] at h
    by_cases hx : isSeparator x
    · rw [if_pos hx] at h
      cases n with
      | zero =>
        obtain rfl : [] = piece := by simpa using h
        exact ⟨[], x :: xs, rfl, ⟨by simp, by simp, by simpa using hx⟩, rfl⟩
      | succ n =>
        obtain ⟨before, after, rfl, hpiece, hcount⟩ := ih h
        refine ⟨x :: before, after, rfl, ⟨hpiece.inner, ?_, hpiece.right⟩, by simp [hx, hcount]⟩
        cases before with
        | nil => simpa using hx
        | cons y before => simpa using hpiece.left
    · rw [if_neg hx] at h
      obtain ⟨first, rest, hs⟩ := List.exists_cons_of_ne_nil (separated_ne_nil isSeparator xs)
      rw [hs] at h ih
      cases n with
      | zero =>
        obtain rfl : x :: first = piece := by simpa [consFirst] using h
        obtain ⟨before, after, rfl, hpiece, hcount⟩ := ih (n := 0) rfl
        -- The piece goes on with an element, so nothing separates it from the start.
        obtain rfl : before = [] := by
          cases hlast : before.getLast? with
          | none => exact List.getLast?_eq_none_iff.1 hlast
          | some y =>
            have hy := List.countP_eq_zero.1 hcount y (List.mem_of_getLast? hlast)
            exact absurd (hpiece.left y hlast) hy
        refine ⟨[], after, rfl, ⟨?_, by simp, hpiece.right⟩, rfl⟩
        simpa [hx] using hpiece.inner
      | succ n =>
        obtain ⟨before, after, rfl, hpiece, hcount⟩ := ih (n := n + 1) h
        refine ⟨x :: before, after, rfl, ⟨hpiece.inner, ?_, hpiece.right⟩, by simp [hx, hcount]⟩
        cases before with
        | nil => simp at hcount
        | cons y before => simpa using hpiece.left

/-- Pieces are parts of the list in its order. -/
theorem flatten_separated_sublist (isSeparator : α → Bool) (xs : List α) :
    (separated isSeparator xs).flatten.Sublist xs := by
  induction xs with
  | nil => simp
  | cons x xs ih =>
    rw [separated_cons]
    split
    · simpa using ih.cons x
    · obtain ⟨first, rest, hs⟩ := List.exists_cons_of_ne_nil (separated_ne_nil isSeparator xs)
      rw [hs] at ih ⊢
      simpa [consFirst] using ih

end Text

/-! ## Placed characters -/

theorem offset_of_place_eq {offset : Nat} {cs : List Char} {before after : List PlacedChar}
    {p : PlacedChar} (h : place offset cs = before ++ p :: after) :
    p.offset = offset + byteLength (before.map PlacedChar.char) := by
  induction before generalizing offset cs with
  | nil =>
    cases cs with
    | nil => simp at h
    | cons c cs =>
      obtain ⟨rfl, _⟩ : ⟨c, offset⟩ = p ∧ _ := by simpa using h
      simp
  | cons q before ih =>
    cases cs with
    | nil => simp at h
    | cons c cs =>
      obtain ⟨rfl, hrest⟩ : ⟨c, offset⟩ = q ∧ _ := by simpa using h
      rw [ih hrest, List.map_cons, byteLength_cons, Nat.add_assoc]

theorem le_offset_of_mem_place {offset : Nat} {cs : List Char} {p : PlacedChar}
    (h : p ∈ place offset cs) : offset ≤ p.offset := by
  obtain ⟨before, after, hsplit⟩ := List.append_of_mem h
  rw [offset_of_place_eq hsplit]
  exact Nat.le_add_right _ _

theorem pairwise_place (offset : Nat) (cs : List Char) :
    (place offset cs).Pairwise fun p q => p.offset < q.offset := by
  induction cs generalizing offset with
  | nil => exact .nil
  | cons c cs ih =>
    refine .cons (fun q hq => ?_) (ih _)
    exact Nat.lt_of_lt_of_le (Nat.lt_add_of_pos_right c.utf8Size_pos) (le_offset_of_mem_place hq)

/-! ## Words of lines -/

namespace SourceLine

variable {source : String} {line : SourceLine}

/-- A line is a piece of its source, and newlines in front of it count to its number. -/
theorem exists_isPiece_of_mem_all (h : line ∈ all source) :
    ∃ before ps after, place 0 source.toList = before ++ ps ++ after ∧
      Text.IsPiece (fun p => p.char == '\n') before ps after ∧
      line = ⟨1 + (before.map PlacedChar.char).count '\n', wordsOf ps⟩ := by
  obtain ⟨⟨ps, n⟩, hmem, rfl⟩ := List.mem_map.1 h
  obtain ⟨hn, hps⟩ := List.mk_mem_zipIdx_iff_le_and_getElem?_sub.1 hmem
  obtain ⟨before, after, hsplit, hpiece, hcount⟩ := Text.exists_isPiece hps
  refine ⟨before, ps, after, hsplit, hpiece, ?_⟩
  rw [List.count, List.countP_map]
  have hnumber : n = 1 + before.countP fun p => p.char == '\n' := by omega
  rw [hnumber]
  rfl

/-- Characters of a line in front of a word, in it, behind it, and from the first comment start
on. -/
structure IsCodePiece (left piece right rest : List PlacedChar) : Prop where
  ne_nil : piece ≠ []
  isPiece : Text.IsPiece (fun p => Text.isSpace p.char) left piece right
  code : ∀ p ∈ left ++ piece ++ right, isCommentStart p.char = false
  comment : ∀ p ∈ rest.head?, isCommentStart p.char

theorem exists_isCodePiece_of_mem_wordsOf {ps : List PlacedChar} {w : SourceWord}
    (h : w ∈ wordsOf ps) :
    ∃ left piece right rest, ps = left ++ piece ++ right ++ rest ∧
      IsCodePiece left piece right rest ∧ w = .ofPlaced piece := by
  obtain ⟨piece, hmem, rfl⟩ := List.mem_map.1 h
  obtain ⟨hmem, hne⟩ := List.mem_filter.1 hmem
  obtain ⟨n, hn⟩ := List.getElem?_of_mem hmem
  obtain ⟨left, right, hcode, hpiece, _⟩ := Text.exists_isPiece hn
  refine ⟨left, piece, right, ps.dropWhile fun p => !isCommentStart p.char, ?_,
    ⟨by simpa using hne, hpiece, ?_, ?_⟩, rfl⟩
  · rw [← hcode, List.takeWhile_append_dropWhile]
  · rw [← hcode]
    intro p hp
    simpa using List.all_eq_true.1 List.all_takeWhile p hp
  · intro p hp
    have hnot := List.head?_dropWhile_not (fun p : PlacedChar => !isCommentStart p.char) ps
    rw [Option.mem_def.1 hp] at hnot
    simpa using hnot

theorem IsCodePiece.isWord {before after left piece right rest : List PlacedChar}
    (h : IsCodePiece left piece right rest)
    (hline : Text.IsPiece (fun p => p.char == '\n') before (left ++ piece ++ right ++ rest) after) :
    IsWord ((before ++ left).map PlacedChar.char) (piece.map PlacedChar.char)
      ((right ++ rest ++ after).map PlacedChar.char) := by
  have hbreak : ∀ p : PlacedChar, (p.char == '\n') = true → isWordChar p.char = false := by
    intro p hp
    rw [beq_iff_eq.1 hp]
    decide
  have hspace : ∀ p : PlacedChar, Text.isSpace p.char = true → isWordChar p.char = false := by
    intro p hp
    simp [isWordChar, hp]
  refine ⟨by simpa using h.ne_nil, ?_, ?_, ?_, ?_⟩
  · intro c hc
    obtain ⟨p, hp, rfl⟩ := List.mem_map.1 hc
    have hspace := h.isPiece.inner p hp
    have hcomment := h.code p (by simp [hp])
    simp [isWordChar, hspace, hcomment]
  · intro c hc
    rw [List.getLast?_map, List.getLast?_append] at hc
    obtain ⟨p, hp, rfl⟩ := Option.map_eq_some_iff.1 hc
    rcases Option.or_eq_some_iff.1 hp with hp | ⟨_, hp⟩
    · exact hspace p (h.isPiece.left p hp)
    · exact hbreak p (hline.left p hp)
  · intro c hc
    rw [List.head?_map, List.head?_append, List.head?_append] at hc
    obtain ⟨p, hp, rfl⟩ := Option.map_eq_some_iff.1 hc
    rcases Option.or_eq_some_iff.1 hp with hp | ⟨_, hp⟩
    · rcases Option.or_eq_some_iff.1 hp with hp | ⟨_, hp⟩
      · exact hspace p (h.isPiece.right p hp)
      · simp [isWordChar, h.comment p hp]
    · exact hbreak p (hline.right p hp)
  · -- Back from the word, its line ends with the code in front of it.
    have hend : (before.map PlacedChar.char).reverse.takeWhile (· != '\n') = [] := by
      cases hb : before.getLast? with
      | none => rw [List.getLast?_eq_none_iff.1 hb]; rfl
      | some p =>
        obtain ⟨front, rfl⟩ := List.getLast?_eq_some_iff.1 hb
        have hp : p.char = '\n' := by simpa using hline.left p hb
        simp [hp]
    have hleft : ∀ c ∈ (left.map PlacedChar.char).reverse, (c != '\n') = true := by
      intro c hc
      obtain ⟨p, hp, rfl⟩ := List.mem_map.1 (List.mem_reverse.1 hc)
      have hp' := hline.inner p (by simp [hp])
      simpa using hp'
    rw [List.map_append, List.reverse_append, List.takeWhile_append_of_pos hleft, hend,
      List.append_nil]
    intro c hc
    obtain ⟨p, hp, rfl⟩ := List.mem_map.1 (List.mem_reverse.1 hc)
    exact h.code p (by simp [hp])

/-- The words of a source stand on their lines. -/
theorem standsOn (hl : line ∈ all source) {w : SourceWord} (hw : w ∈ line.words) :
    w.StandsOn source line.number := by
  obtain ⟨before, ps, after, hsource, hline, rfl⟩ := exists_isPiece_of_mem_all hl
  obtain ⟨left, piece, right, rest, rfl, hpiece, rfl⟩ := exists_isCodePiece_of_mem_wordsOf hw
  refine ⟨_, _, ⟨?_, ?_, rfl⟩, hpiece.isWord hline, ?_⟩
  · have hchars := congrArg (List.map PlacedChar.char) hsource
    rw [map_char_place] at hchars
    rw [hchars]
    simp [SourceWord.ofPlaced]
  · obtain ⟨q, qs, rfl⟩ := List.exists_cons_of_ne_nil hpiece.ne_nil
    have hsplit : place 0 source.toList =
        (before ++ left) ++ q :: (qs ++ right ++ rest ++ after) := by
      rw [hsource]
      simp
    have hoffset := offset_of_place_eq hsplit
    rw [Nat.zero_add] at hoffset
    exact hoffset
  · have hcount : (left.map PlacedChar.char).count '\n' = 0 := by
      refine List.count_eq_zero.2 fun hmem => ?_
      obtain ⟨p, hp, hc⟩ := List.mem_map.1 hmem
      have hp' := hline.inner p (by simp [hp])
      simp [hc] at hp'
    rw [List.map_append, List.count_append, hcount, Nat.add_zero]

/-- The words of a line stand one behind the other. -/
theorem pairwise_words (hl : line ∈ all source) :
    line.words.Pairwise fun v w => v.span.stop ≤ w.offset := by
  have horder : line.words.Pairwise fun v w => v.offset < w.offset := by
    obtain ⟨before, ps, after, hsource, _, rfl⟩ := exists_isPiece_of_mem_all hl
    have hps : ps.Pairwise fun p q => p.offset < q.offset := by
      refine (pairwise_place 0 source.toList).sublist ?_
      rw [hsource, List.append_assoc]
      exact (List.sublist_append_left ps after).trans (List.sublist_append_right before _)
    have hcode := hps.sublist (List.takeWhile_sublist fun p => !isCommentStart p.char)
    have hpieces := (List.pairwise_flatten.1 (hcode.sublist
      (Text.flatten_separated_sublist (fun p => Text.isSpace p.char) _))).2
    refine List.pairwise_map.2 ((hpieces.filter _).imp_of_mem fun hp hq h => ?_)
    obtain ⟨p, ps, rfl⟩ := List.exists_cons_of_ne_nil (by simpa using (List.mem_filter.1 hp).2)
    obtain ⟨q, qs, rfl⟩ := List.exists_cons_of_ne_nil (by simpa using (List.mem_filter.1 hq).2)
    exact h p List.mem_cons_self q List.mem_cons_self
  exact horder.imp_of_mem fun hv hw h => (standsOn hl hv).stop_le (standsOn hl hw) h

/-- The lines of a source are numbered in order. -/
theorem pairwise_number (source : String) :
    (all source).Pairwise fun l m => l.number < m.number := by
  unfold all
  rw [List.pairwise_map]
  have hrange := List.pairwise_lt_range' (s := 1)
    (n := (Text.separated (fun p => p.char == '\n') (place 0 source.toList)).length)
  rw [← List.zipIdx_map_snd, List.pairwise_map] at hrange
  exact hrange

/-- From the first to the last word of a line is exact. -/
theorem isExact_cover {number : Nat} {first : SourceWord} {rest : List SourceWord}
    (hl : ⟨number, first :: rest⟩ ∈ all source) :
    (Grammar.cover first rest).IsExact source number ∧
      (Grammar.cover first rest).offset = first.offset ∧
      (Grammar.cover first rest).stop =
        ((first :: rest).getLast (List.cons_ne_nil _ _)).span.stop := by
  have hfirst : first.StandsOn source number := standsOn hl List.mem_cons_self
  cases rest with
  | nil =>
    have hcover : Grammar.cover first [] = first.span := Span.join_self _
    rw [hcover]
    exact ⟨hfirst.isExact, rfl, rfl⟩
  | cons w rest =>
    have hlast := List.getLast_mem (List.cons_ne_nil w rest)
    have hstop : first.span.stop ≤ ((w :: rest).getLast (List.cons_ne_nil w rest)).span.offset :=
      (List.pairwise_cons.1 (pairwise_words hl)).1 _ hlast
    have hbetween := hfirst.isExact_between (standsOn hl (List.mem_cons_of_mem first hlast)) hstop
    obtain ⟨hjoin, hend⟩ := Span.join_of_stop_le hstop
    have hcover : Grammar.cover first (w :: rest) =
        first.span.join ((w :: rest).getLast (List.cons_ne_nil w rest)).span := rfl
    rw [hcover, hend, hjoin]
    exact ⟨hbetween, rfl, rfl⟩

end SourceLine

end Mailbox
