import Mailbox.Proofs.Assembly.CursorPlace
set_option autoImplicit false

/-!
# The words of a source, line by line

A second way to find the words of a source text, without lexemes: split it at its newlines, cut
each line at its first comment start, split what remains at white space and drop the empty pieces.
Characters carry their places along, so that every word knows its offset.  Main statement: the
tokens of a source are these words.
-/

namespace Mailbox

/-- A character of a source with the number of bytes in front of it. -/
structure PlacedChar where
  char : Char
  offset : Nat
  deriving DecidableEq, Repr, Inhabited

/-- The characters of a text that starts at an offset. -/
def place (offset : Nat) : List Char → List PlacedChar
  | [] => []
  | c :: cs => ⟨c, offset⟩ :: place (offset + c.utf8Size) cs

@[simp] theorem place_nil (offset : Nat) : place offset [] = [] := rfl

@[simp] theorem place_cons (offset : Nat) (c : Char) (cs : List Char) :
    place offset (c :: cs) = ⟨c, offset⟩ :: place (offset + c.utf8Size) cs := rfl

theorem place_append (offset : Nat) (cs ds : List Char) :
    place offset (cs ++ ds) = place offset cs ++ place (offset + byteLength cs) ds := by
  induction cs generalizing offset with
  | nil => simp
  | cons c cs ih => simp [ih, Nat.add_assoc]

@[simp] theorem map_char_place (offset : Nat) (cs : List Char) :
    (place offset cs).map PlacedChar.char = cs := by
  induction cs generalizing offset with
  | nil => rfl
  | cons c cs ih => simp [ih]

theorem head?_place (offset : Nat) (cs : List Char) :
    (place offset cs).head? = cs.head?.map fun c => ⟨c, offset⟩ := by
  cases cs <;> rfl

theorem forall_place {P : Char → Prop} {cs : List Char} (h : ∀ c ∈ cs, P c) (offset : Nat) :
    ∀ p ∈ place offset cs, P p.char := by
  intro p hp
  have hmem : p.char ∈ (place offset cs).map PlacedChar.char := List.mem_map_of_mem hp
  rw [map_char_place] at hmem
  exact h p.char hmem

/-- A word of a source. -/
structure SourceWord where
  text : List Char
  offset : Nat
  deriving DecidableEq, Repr, Inhabited

namespace SourceWord

/-- The word that characters in a row make. -/
def ofPlaced (ps : List PlacedChar) : SourceWord where
  text := ps.map PlacedChar.char
  offset := (ps.head?.map PlacedChar.offset).getD 0

/-- Where a word stands. -/
def span (w : SourceWord) : Span := ⟨w.offset, byteLength w.text⟩

/-- The characters of a word as a text. -/
def name (w : SourceWord) : String := String.ofList w.text

/-- The token of a word on a line. -/
def token (line : Nat) (w : SourceWord) : Token := ⟨.ofWord w.text, w.span, line⟩

theorem ofPlaced_place (offset : Nat) (c : Char) (cs : List Char) :
    ofPlaced (place offset (c :: cs)) = ⟨c :: cs, offset⟩ := by
  simp [ofPlaced]

end SourceWord

/-- A line of a source: its number and its words. -/
structure SourceLine where
  number : Nat
  words : List SourceWord
  deriving DecidableEq, Repr, Inhabited

namespace SourceLine

/-- The words of a line: what stands between white space in front of the first comment start. -/
def wordsOf (line : List PlacedChar) : List SourceWord :=
  let code := line.takeWhile fun p => !isCommentStart p.char
  ((Text.separated (fun p => Text.isSpace p.char) code).filter (!·.isEmpty)).map .ofPlaced

/-- The lines of a source.  They are parted by newlines and count from one. -/
def all (source : String) : List SourceLine :=
  ((Text.separated (fun p => p.char == '\n') (place 0 source.toList)).zipIdx 1).map
    fun line => ⟨line.2, wordsOf line.1⟩

/-- The tokens of a line. -/
def tokens (line : SourceLine) : List Token :=
  line.words.map (SourceWord.token line.number)

/-! ## Words at the start of a line -/

@[simp] theorem wordsOf_nil : wordsOf [] = [] := rfl

/-- A comment has no words. -/
theorem wordsOf_comment {p : PlacedChar} (h : isCommentStart p.char) (line : List PlacedChar) :
    wordsOf (p :: line) = [] := by
  unfold wordsOf
  rw [List.takeWhile_cons_of_neg (by simp [h])]
  rfl

/-- White space at the start of a line is passed over. -/
theorem wordsOf_append_of_isSpace {ps : List PlacedChar} (h : ∀ p ∈ ps, Text.isSpace p.char)
    (line : List PlacedChar) : wordsOf (ps ++ line) = wordsOf line := by
  induction ps with
  | nil => rfl
  | cons p ps ih =>
    have hp : Text.isSpace p.char := h p List.mem_cons_self
    rw [← ih (fun q hq => h q (List.mem_cons_of_mem p hq)), List.cons_append]
    unfold wordsOf
    rw [List.takeWhile_cons_of_pos (by simp [isCommentStart_of_isSpace hp])]
    simp only [Text.separated_cons, hp, if_true]
    rfl

/-- A run of word characters, up to one that is none, is the first word. -/
theorem wordsOf_append_of_isWordChar {ps line : List PlacedChar} (hne : ps ≠ [])
    (h : ∀ p ∈ ps, isWordChar p.char) (hline : ∀ p ∈ line.head?, isWordChar p.char = false) :
    wordsOf (ps ++ line) = SourceWord.ofPlaced ps :: wordsOf line := by
  have hcode : ∀ p ∈ ps, (!isCommentStart p.char) = true := by
    intro p hp
    have hw := h p hp
    simp only [isWordChar, Bool.and_eq_true] at hw
    exact hw.2
  have hspace : ∀ p ∈ ps, Text.isSpace p.char = false := by
    intro p hp
    have hw := h p hp
    simp only [isWordChar, Bool.and_eq_true, Bool.not_eq_true'] at hw
    exact hw.1
  -- What follows the word in front of a comment is nothing or starts with white space.
  have hsep : ∃ rest, Text.separated (fun p : PlacedChar => Text.isSpace p.char)
      (line.takeWhile fun p => !isCommentStart p.char) = [] :: rest := by
    cases line with
    | nil => exact ⟨[], rfl⟩
    | cons p line =>
      have hp := hline p rfl
      by_cases hc : isCommentStart p.char
      · rw [List.takeWhile_cons_of_neg (by simp [hc])]
        exact ⟨[], rfl⟩
      · have hs : Text.isSpace p.char = true := by
          simpa [isWordChar, hc] using hp
        rw [List.takeWhile_cons_of_pos (by simp [hc]), Text.separated_cons, hs]
        exact ⟨_, rfl⟩
  obtain ⟨rest, hrest⟩ := hsep
  unfold wordsOf
  rw [List.takeWhile_append_of_pos hcode]
  simp only [Text.separated_append hspace hrest, hrest, List.append_nil]
  rw [List.filter_cons_of_pos (by simpa using hne), List.filter_cons_of_neg (by simp)]
  rfl

/-! ## Tokens are the words of lines -/

/-- The tokens of placed characters, parted at newlines and numbered from a line on. -/
def tokensFrom (line : Nat) (ps : List PlacedChar) : List (List Token) :=
  ((Text.separated (fun p => p.char == '\n') ps).zipIdx line).map
    fun l => (wordsOf l.1).map (SourceWord.token l.2)

theorem tokensFrom_newline (line offset : Nat) (ps : List PlacedChar) :
    tokensFrom line (⟨'\n', offset⟩ :: ps) = [] :: tokensFrom (line + 1) ps := by
  simp [tokensFrom, Text.separated_cons]

/-- Characters in front of the first newline bear on the words of the first line only. -/
theorem tokensFrom_append {line : Nat} {ps qs : List PlacedChar} {first : List PlacedChar}
    {rest : List (List PlacedChar)} (hp : ∀ p ∈ ps, (p.char == '\n') = false)
    (hq : Text.separated (fun p => p.char == '\n') qs = first :: rest) :
    tokensFrom line (ps ++ qs) =
      (wordsOf (ps ++ first)).map (SourceWord.token line) :: (tokensFrom line qs).tail := by
  unfold tokensFrom
  rw [Text.separated_append hp hq, hq]
  simp

theorem tokensFrom_eq_cons {line : Nat} {qs : List PlacedChar} {first : List PlacedChar}
    {rest : List (List PlacedChar)}
    (hq : Text.separated (fun p => p.char == '\n') qs = first :: rest) :
    tokensFrom line qs =
      (wordsOf first).map (SourceWord.token line) :: (tokensFrom line qs).tail := by
  unfold tokensFrom
  rw [hq]
  simp

/-- A blank has no tokens. -/
theorem tokensFrom_blank {text : List Char} (h : ∀ c ∈ text, isBlank c) (line offset : Nat)
    (cs : List Char) :
    tokensFrom line (place offset (text ++ cs)) =
      tokensFrom line (place (offset + byteLength text) cs) := by
  have hp : ∀ p ∈ place offset text, (p.char == '\n') = false :=
    forall_place (P := fun c => (c == '\n') = false) (fun c hc => by
      have hb := h c hc
      simp only [isBlank, Bool.and_eq_true, bne_iff_ne] at hb
      simpa using hb.1) offset
  have hs : ∀ p ∈ place offset text, Text.isSpace p.char :=
    forall_place (P := fun c => Text.isSpace c) (fun c hc => by
      have hb := h c hc
      simp only [isBlank, Bool.and_eq_true] at hb
      exact hb.2) offset
  rw [place_append]
  obtain ⟨first, rest, hq⟩ := List.exists_cons_of_ne_nil (Text.separated_ne_nil
    (fun p : PlacedChar => p.char == '\n') (place (offset + byteLength text) cs))
  rw [tokensFrom_append hp hq, wordsOf_append_of_isSpace hs, ← tokensFrom_eq_cons hq]

/-- A comment that ends with its line has no tokens. -/
theorem tokensFrom_comment {c : Char} {text : List Char} (hc : isCommentStart c)
    (h : ∀ d ∈ c :: text, (d == '\n') = false) (line offset : Nat) {cs : List Char}
    (hcs : ∀ d ∈ cs.head?, d = '\n') :
    tokensFrom line (place offset ((c :: text) ++ cs)) =
      tokensFrom line (place (offset + byteLength (c :: text)) cs) := by
  have hp := forall_place (P := fun d => (d == '\n') = false) h offset
  have hq : ∃ rest, Text.separated (fun p : PlacedChar => p.char == '\n')
      (place (offset + byteLength (c :: text)) cs) = [] :: rest := by
    cases cs with
    | nil => exact ⟨[], rfl⟩
    | cons d cs =>
      obtain rfl : d = '\n' := hcs d rfl
      exact ⟨_, rfl⟩
  obtain ⟨rest, hq⟩ := hq
  rw [place_append, tokensFrom_append hp hq, tokensFrom_eq_cons hq, place_cons, List.cons_append,
    wordsOf_comment hc, wordsOf_nil]
  rfl

/-- A word is the first token of its line behind it. -/
theorem tokensFrom_word {c : Char} {text : List Char} (h : ∀ d ∈ c :: text, isWordChar d)
    (line offset : Nat) {cs : List Char} (hcs : ∀ d ∈ cs.head?, isWordChar d = false) :
    tokensFrom line (place offset ((c :: text) ++ cs)) =
      Text.consFirst (SourceWord.token line ⟨c :: text, offset⟩)
        (tokensFrom line (place (offset + byteLength (c :: text)) cs)) := by
  have hp : ∀ p ∈ place offset (c :: text), (p.char == '\n') = false :=
    forall_place (P := fun d => (d == '\n') = false) (fun d hd => by
      cases hn : d == '\n' with
      | false => rfl
      | true =>
        obtain rfl : d = '\n' := by simpa using hn
        exact absurd (h _ hd) (by decide)) offset
  have hw := forall_place (P := fun d => isWordChar d) h offset
  rw [place_append]
  obtain ⟨first, rest, hq⟩ := List.exists_cons_of_ne_nil (Text.separated_ne_nil
    (fun p : PlacedChar => p.char == '\n') (place (offset + byteLength (c :: text)) cs))
  have hfirst : ∀ p ∈ first.head?, isWordChar p.char = false := by
    intro p hpf
    cases first with
    | nil => simp at hpf
    | cons q first =>
      obtain rfl : q = p := by simpa using hpf
      have hhead := (Text.head?_of_separated hq).1
      rw [head?_place] at hhead
      obtain ⟨d, hd, rfl⟩ := Option.map_eq_some_iff.1 hhead
      exact hcs d hd
  rw [tokensFrom_append hp hq, wordsOf_append_of_isWordChar (by simp) hw hfirst,
    SourceWord.ofPlaced_place, tokensFrom_eq_cons hq]
  rfl

/-- The tokens of lexemes are the words of the lines they come from. -/
theorem linesFrom_scan (cs : List Char) (offset line : Nat) :
    Token.linesFrom offset line (Lexeme.scan cs) = tokensFrom line (place offset cs) := by
  induction hscan : Lexeme.scan cs generalizing cs offset line with
  | nil =>
    rw [Lexeme.eq_nil_of_scan hscan]
    rfl
  | cons l ls ih =>
    obtain ⟨hmunched, hchars, hrest⟩ := Lexeme.munched_of_scan hscan
    have htail := fun offset line => ih (ls.flatMap Lexeme.text) offset line hrest
    obtain ⟨kind, text⟩ := l
    rw [hchars, Token.linesFrom]
    simp only
    cases kind with
    | newline =>
      obtain rfl : text = ['\n'] := hmunched.text_eq_newline rfl
      rw [htail, List.cons_append, List.nil_append, place_cons, tokensFrom_newline]
      simp
    | comment =>
      obtain ⟨c, text, rfl, hkind, _⟩ := hmunched.exists_cons
      have hline : ∀ d ∈ c :: text, (d == '\n') = false := fun d hd =>
        beq_false_of_ne (ne_of_mem_of_not_mem hd (hmunched.newline_not_mem (by simp)))
      rw [tokensFrom_comment (LexemeKind.ofChar_eq_comment_iff.1 hkind) hline line offset
        (fun d hd => by simpa [LexemeKind.continues] using hmunched.stops d hd)]
      exact htail _ _
    | blank =>
      rw [tokensFrom_blank fun d hd =>
        LexemeKind.ofChar_eq_blank_iff.1 (hmunched.ofChar_of_mem (.inl rfl) hd)]
      exact htail _ _
    | word =>
      obtain ⟨c, text, rfl, _⟩ := hmunched.exists_cons
      have hword : ∀ d ∈ c :: text, isWordChar d := fun d hd =>
        LexemeKind.ofChar_eq_word_iff.1 (hmunched.ofChar_of_mem (.inr rfl) hd)
      rw [tokensFrom_word hword line offset hmunched.stops, ← htail]
      rfl

/-- The tokens of a source are the words of its lines. -/
theorem lines_eq (source : String) : Token.lines source = (all source).map tokens := by
  rw [Token.lines_eq_linesFrom, linesFrom_scan]
  simp [tokensFrom, all, tokens]

/-- Words have characters. -/
theorem text_ne_nil {source : String} {line : SourceLine} (hl : line ∈ all source)
    {w : SourceWord} (hw : w ∈ line.words) : w.text ≠ [] := by
  obtain ⟨l, _, rfl⟩ := List.mem_map.1 hl
  obtain ⟨ps, hps, rfl⟩ := List.mem_map.1 hw
  have hne := (List.mem_filter.1 hps).2
  simpa [SourceWord.ofPlaced] using hne

end SourceLine

end Mailbox
