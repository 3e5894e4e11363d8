import Mailbox.Proofs.Assembly.Parsing
set_option autoImplicit false

/-!
# Word lists

What is left of the lines of a source without their layout: the words of each line, without the
lines that have none.  Main statements: these are the words that statements are read from, and
neither blank lines nor comments nor white space at either end of a line make a difference to them.
-/

namespace Mailbox

/-- The lines of a source without the newlines between them. -/
def textLines (source : String) : List (List Char) :=
  Text.separated (· == '\n') source.toList

/-- The words of a line: what stands between white space in front of the first comment start. -/
def lineWords (line : List Char) : List (List Char) :=
  (Text.separated Text.isSpace (line.takeWhile (!isCommentStart ·))).filter (!·.isEmpty)

/-- The words of each line that has some. -/
def wordLists (lines : List (List Char)) : List (List (List Char)) :=
  (lines.map lineWords).filter (!·.isEmpty)

namespace SourceLine

/-- The words of a line without their places. -/
def texts (line : SourceLine) : List (List Char) :=
  line.words.map SourceWord.text

theorem map_text_wordsOf (line : List PlacedChar) :
    (wordsOf line).map SourceWord.text = lineWords (line.map PlacedChar.char) := by
  have hempty : (fun piece : List Char => !piece.isEmpty) ∘ List.map PlacedChar.char =
      fun piece => !piece.isEmpty := funext fun piece => by simp
  unfold wordsOf lineWords
  rw [List.takeWhile_map, Text.separated_map, List.filter_map, hempty, List.map_map]
  rfl

theorem map_texts_all (source : String) :
    (all source).map texts = (textLines source).map lineWords := by
  have hwords : texts ∘ (fun line : List PlacedChar × Nat => ⟨line.2, wordsOf line.1⟩) =
      (lineWords ∘ List.map PlacedChar.char) ∘ Prod.fst :=
    funext fun line => map_text_wordsOf line.1
  rw [all, List.map_map, hwords, ← List.map_map, List.zipIdx_map_fst, ← List.map_map,
    ← Text.separated_map PlacedChar.char (· == '\n'), map_char_place]
  rfl

/-- Statements are read from the word lists of a source. -/
theorem map_texts_filled (source : String) :
    (filled (all source)).map texts = wordLists (textLines source) := by
  have hempty : (fun line : SourceLine => !line.words.isEmpty) =
      (fun ws : List (List Char) => !ws.isEmpty) ∘ texts := funext fun line => by simp [texts]
  rw [filled, hempty, ← List.filter_map, map_texts_all]
  rfl

end SourceLine

/-! ## Layout -/

/-- White space at the start of a line is passed over. -/
theorem lineWords_append_of_isSpace {blanks : List Char} (h : ∀ c ∈ blanks, Text.isSpace c)
    (line : List Char) : lineWords (blanks ++ line) = lineWords line := by
  have hplaced := SourceLine.wordsOf_append_of_isSpace
    (forall_place (P := fun c => Text.isSpace c) h 0) (place (byteLength blanks) line)
  have htexts := congrArg (List.map SourceWord.text) hplaced
  rwa [SourceLine.map_text_wordsOf, SourceLine.map_text_wordsOf, List.map_append, map_char_place,
    map_char_place] at htexts

theorem lineWords_eq_nil_of_isSpace {blanks : List Char} (h : ∀ c ∈ blanks, Text.isSpace c) :
    lineWords blanks = [] := by
  have hblanks := lineWords_append_of_isSpace h []
  rwa [List.append_nil] at hblanks

/-- What has no words itself and is parted from the last word makes no difference at the end of a
line. -/
theorem lineWords_append {rest : List Char} (hwords : lineWords rest = [])
    (hhead : ∀ c ∈ rest.head?, isWordChar c = false) (line : List Char) :
    lineWords (line ++ rest) = lineWords line := by
  unfold lineWords at hwords ⊢
  rw [List.takeWhile_append]
  split
  · rename_i hlen
    have hline : line.takeWhile (!isCommentStart ·) = line :=
      (List.takeWhile_prefix _).eq_of_length hlen
    rw [hline]
    cases hrest : rest.takeWhile (!isCommentStart ·) with
    | nil => rw [List.append_nil]
    | cons c code =>
      -- The first character behind the line starts no comment, so it is white space.
      have hstart : some c = rest.head?.filter (!isCommentStart ·) := by
        rw [← List.head?_takeWhile, hrest]
        rfl
      obtain ⟨hmem, hcomment⟩ := Option.filter_eq_some_iff.1 hstart.symm
      have hspace : Text.isSpace c := by
        have hnot := hhead c hmem
        simpa [isWordChar, hcomment] using hnot
      rw [hrest, Text.separated_cons, if_pos hspace, List.filter_cons_of_neg (by simp)] at hwords
      rw [Text.separated_append_cons hspace, List.filter_append, hwords, List.append_nil]
  · rfl

/-- Lines that are laid out in another way: with other lines that are blank, with other comments, or
with other white space at the ends of lines, such as a carriage return. -/
inductive Relaid : List (List Char) → List (List Char) → Prop
  | indent {blanks : List Char} (h : ∀ c ∈ blanks, Text.isSpace c) (line : List Char)
      (lines : List (List Char)) : Relaid (line :: lines) ((blanks ++ line) :: lines)
  | trail {blanks : List Char} (h : ∀ c ∈ blanks, Text.isSpace c) (line : List Char)
      (lines : List (List Char)) : Relaid (line :: lines) ((line ++ blanks) :: lines)
  | comment {start : Char} (h : isCommentStart start) (text line : List Char)
      (lines : List (List Char)) : Relaid (line :: lines) ((line ++ start :: text) :: lines)
  | blank {line : List Char} (h : ∀ c ∈ line, Text.isSpace c) (lines : List (List Char)) :
      Relaid lines (line :: lines)
  | cons (line : List Char) {lines lines' : List (List Char)} :
      Relaid lines lines' → Relaid (line :: lines) (line :: lines')
  | symm {lines lines' : List (List Char)} : Relaid lines lines' → Relaid lines' lines
  | trans {lines lines' lines'' : List (List Char)} :
      Relaid lines lines' → Relaid lines' lines'' → Relaid lines lines''

theorem wordLists_cons (line : List Char) (lines : List (List Char)) :
    wordLists (line :: lines) = wordLists [line] ++ wordLists lines := by
  rw [← List.singleton_append, wordLists, List.map_append, List.filter_append]
  rfl

/-- The word lists tell nothing of the layout. -/
theorem Relaid.wordLists_eq {lines lines' : List (List Char)} (h : Relaid lines lines') :
    wordLists lines = wordLists lines' := by
  -- A line with the same words is as good.
  have hline {line line' : List Char} (hwords : lineWords line' = lineWords line)
      (lines : List (List Char)) : wordLists (line :: lines) = wordLists (line' :: lines) := by
    rw [wordLists, wordLists, List.map_cons, List.map_cons, hwords]
  have hspace {c : Char} (hc : Text.isSpace c) : isWordChar c = false := by
    simp [isWordChar, hc]
  induction h with
  | indent h line lines => exact hline (lineWords_append_of_isSpace h line) lines
  | trail h line lines =>
    refine hline (lineWords_append (lineWords_eq_nil_of_isSpace h) (fun c hc => ?_) line) lines
    exact hspace (h c (List.mem_of_mem_head? hc))
  | @comment start h text line lines =>
    have hnone : lineWords (start :: text) = [] := by
      unfold lineWords
      rw [List.takeWhile_cons_of_neg (by simp [h])]
      rfl
    refine hline (lineWords_append hnone (fun c hc => ?_) line) lines
    obtain rfl : start = c := by simpa using hc
    simp [isWordChar, h]
  | @blank line h lines =>
    rw [wordLists, wordLists, List.map_cons, lineWords_eq_nil_of_isSpace h]
    rfl
  | cons line _ ih => rw [wordLists_cons line, ih, ← wordLists_cons]
  | symm _ ih => exact ih.symm
  | trans _ _ ih ih' => exact ih.trans ih'

end Mailbox
