import Mailbox.Text.Space
set_option autoImplicit false

/-!
# Lexemes

Cutting a source text into words, blanks, comments and newlines.  Every character belongs to
exactly one lexeme, and a lexeme goes on as long as its kind allows.

Normative source: SPEC_FULL.md, section 4.1.
-/

namespace Mailbox

/-- A character that starts a comment. -/
def isCommentStart (c : Char) : Bool :=
  c == '#' || c == ';'

/-- White space that does not end a line. -/
def isBlank (c : Char) : Bool :=
  c != '\n' && Text.isSpace c

/-- A character that may stand in a word. -/
def isWordChar (c : Char) : Bool :=
  !Text.isSpace c && !isCommentStart c

theorem isCommentStart_of_isSpace {c : Char} (h : Text.isSpace c) : isCommentStart c = false := by
  cases hc : isCommentStart c with
  | false => rfl
  | true =>
    simp only [isCommentStart, Bool.or_eq_true, beq_iff_eq] at hc
    rcases hc with rfl | rfl <;> exact absurd h (by decide)

/-- The kinds of lexemes. -/
inductive LexemeKind where
  | word
  | comment
  | blank
  | newline
  deriving DecidableEq, Repr, Inhabited

namespace LexemeKind

/-- The kind of lexeme that a character starts. -/
def ofChar (c : Char) : LexemeKind :=
  if isCommentStart c then .comment
  else if c == '\n' then .newline
  else if isBlank c then .blank
  else .word

/-- Whether a lexeme of this kind goes on with a character. -/
def continues : LexemeKind → Char → Bool
  | .word, c => isWordChar c
  | .comment, c => c != '\n'
  | .blank, c => isBlank c
  | .newline, _ => false

theorem ofChar_eq_comment_iff {c : Char} : ofChar c = .comment ↔ isCommentStart c := by
  grind [ofChar]

theorem ofChar_eq_newline_iff {c : Char} : ofChar c = .newline ↔ c = '\n' := by
  have hnewline : isCommentStart '\n' = false := by decide
  grind [ofChar]

theorem ofChar_eq_blank_iff {c : Char} : ofChar c = .blank ↔ isBlank c := by
  grind [ofChar, isBlank, isCommentStart_of_isSpace]

theorem ofChar_eq_word_iff {c : Char} : ofChar c = .word ↔ isWordChar c := by
  have hnewline : Text.isSpace '\n' := by decide
  grind [ofChar, isBlank, isWordChar]

end LexemeKind

/-- A piece of source text of one kind. -/
structure Lexeme where
  kind : LexemeKind
  text : List Char
  deriving DecidableEq, Repr, Inhabited

namespace Lexeme

/-- The lexemes of a source text, in order. -/
def scan : List Char → List Lexeme
  | [] => []
  | c :: cs =>
    let kind := LexemeKind.ofChar c
    ⟨kind, c :: cs.takeWhile kind.continues⟩ :: scan (cs.dropWhile kind.continues)
termination_by cs => cs.length
decreasing_by
  simp only [List.length_cons]
  exact Nat.lt_succ_of_le (List.dropWhile_suffix _).length_le

@[simp] theorem scan_nil : scan [] = [] := by
  simp [scan]

theorem scan_cons (c : Char) (cs : List Char) :
    scan (c :: cs) =
      ⟨.ofChar c, c :: cs.takeWhile (LexemeKind.ofChar c).continues⟩ ::
        scan (cs.dropWhile (LexemeKind.ofChar c).continues) := by
  rw [scan]

/-- Nothing is lost: the lexemes put together are the source text. -/
theorem flatMap_text_scan (cs : List Char) : (scan cs).flatMap Lexeme.text = cs := by
  fun_induction scan cs with
  | case1 => rfl
  | case2 c cs kind ih => simp [ih, List.takeWhile_append_dropWhile]

end Lexeme

end Mailbox
