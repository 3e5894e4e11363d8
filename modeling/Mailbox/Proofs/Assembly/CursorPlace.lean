import Mailbox.Assembly.Token
import Mailbox.Proofs.Assembly.Munch
set_option autoImplicit false

/-!
# Where a cursor stands

The counts of a cursor are those of the text that it has passed, whatever it is told to pass.  Main
statements: each operation of a cursor keeps its counts right, reading a lexeme reads the next one
of the scan, and the tokens that are read from a cursor are those of the scanned lexemes.
-/

namespace Mailbox

/-- The kind and the number of bytes of a lexeme. -/
def Lexeme.stretch (l : Lexeme) : Stretch := ⟨l.kind, byteLength l.text⟩

namespace Cursor

/-- A cursor stands in a source behind some text and the first part of a lexeme, and counts the
bytes and the lines of both. -/
structure StandsAt (c : Cursor) (source : String) (before inside : List Char) : Prop where
  source_eq : c.source = source
  chars_eq : source.toList = before ++ inside ++ c.rest
  mark_eq : c.mark = byteLength (inside ++ c.rest)
  line_eq : c.line = 1 + (before ++ inside).count '\n'

theorem standsAt_start (source : String) : (start source).StandsAt source [] [] :=
  ⟨rfl, rfl, (byteLength_toList source).symm, rfl⟩

section StandsAt

variable {c : Cursor} {source : String} {before inside : List Char}

theorem StandsAt.offset_eq (h : c.StandsAt source before inside) :
    c.offset = byteLength (before ++ inside) := by
  rw [offset, c.left_eq, h.source_eq, ← byteLength_toList, h.chars_eq, byteLength_append,
    Nat.add_sub_cancel]

theorem StandsAt.lexemeBytes_eq (h : c.StandsAt source before inside) :
    c.lexemeBytes = byteLength inside := by
  rw [lexemeBytes, c.left_eq, h.mark_eq, byteLength_append, Nat.add_sub_cancel]

/-- A character that is passed is counted. -/
theorem StandsAt.bump {x : Char} {rest : List Char} (h : c.StandsAt source before inside)
    (hrest : c.rest = x :: rest) : c.bump.2.StandsAt source before (inside ++ [x]) := by
  obtain ⟨_, hnext, hsource, hmark, hline⟩ := bump_of_cons hrest
  refine ⟨hsource.trans h.source_eq, ?_, ?_, ?_⟩
  · rw [h.chars_eq, hrest, hnext]
    simp
  · rw [hmark, h.mark_eq, hrest, hnext]
    simp
  · have hcount : (before ++ (inside ++ [x])).count '\n' =
        (before ++ inside).count '\n' + if x = '\n' then 1 else 0 := by
      rw [← List.append_assoc, List.count_append, List.count_singleton]
      simp only [beq_iff_eq]
    rw [hline, h.line_eq, hcount]
    split <;> rfl

/-- The characters that are passed are the longest run of the class, also at the end of the text and
where the end mark stands in it. -/
theorem StandsAt.takeWhile (h : c.StandsAt source before inside) (p : Char → Bool) :
    (c.takeWhile p).StandsAt source before (inside ++ c.rest.takeWhile p) := by
  induction hrest : c.rest generalizing c inside with
  | nil =>
    rw [takeWhile_of_nil hrest, List.takeWhile_nil, List.append_nil]
    exact h
  | cons x rest ih =>
    rw [takeWhile_of_cons hrest, List.takeWhile_cons]
    split
    · have hnext := ih (h.bump hrest) (rest_bump_of_cons hrest)
      rwa [List.append_assoc, List.singleton_append] at hnext
    · rw [List.append_nil]
      exact h

theorem StandsAt.beginLexeme (h : c.StandsAt source before inside) :
    c.beginLexeme.StandsAt source (before ++ inside) [] := by
  refine ⟨h.source_eq, ?_, c.left_eq, ?_⟩
  · rw [List.append_nil]
    exact h.chars_eq
  · rw [List.append_nil]
    exact h.line_eq

/-- Reading a lexeme passes one character and those that go on with it. -/
theorem StandsAt.advance {x : Char} {rest : List Char} (h : c.StandsAt source before inside)
    (hrest : c.rest = x :: rest) :
    c.advance.1 = some ⟨.ofChar x, byteLength
        (inside ++ x :: rest.takeWhile (LexemeKind.ofChar x).continues)⟩ ∧
      c.advance.2.StandsAt source
        (before ++ (inside ++ x :: rest.takeWhile (LexemeKind.ofChar x).continues)) [] ∧
      c.advance.2.rest = rest.dropWhile (LexemeKind.ofChar x).continues := by
  have hnext := rest_bump_of_cons hrest
  have hend := (h.bump hrest).takeWhile (LexemeKind.ofChar x).continues
  rw [hnext, List.append_assoc, List.singleton_append] at hend
  rw [advance_of_cons hrest]
  refine ⟨?_, hend.beginLexeme, ?_⟩
  · rw [hend.lexemeBytes_eq]
  · rw [rest_beginLexeme, rest_takeWhile, hnext]

/-- Between two lexemes, the next one of the scan is read. -/
theorem StandsAt.advance_of_scan {l : Lexeme} {ls : List Lexeme}
    (h : c.StandsAt source before []) (hscan : Lexeme.scan c.rest = l :: ls) :
    c.advance.1 = some l.stretch ∧ c.advance.2.StandsAt source (before ++ l.text) [] ∧
      Lexeme.scan c.advance.2.rest = ls := by
  cases hrest : c.rest with
  | nil =>
    rw [hrest, Lexeme.scan_nil] at hscan
    exact absurd hscan (by simp)
  | cons x rest =>
    rw [hrest, Lexeme.scan_cons] at hscan
    obtain ⟨rfl, rfl⟩ := List.cons.inj hscan
    obtain ⟨hstretch, hstands, hnext⟩ := h.advance hrest
    exact ⟨hstretch, hstands, by rw [hnext]⟩

end StandsAt

end Cursor

namespace Token

/-- The tokens of lexemes that start at an offset in a line, one list for each line. -/
def linesFrom (offset line : Nat) : List Lexeme → List (List Token)
  | [] => [[]]
  | l :: ls =>
    let next := offset + byteLength l.text
    match l.kind with
    | .newline => [] :: linesFrom next (line + 1) ls
    | .word =>
      Text.consFirst ⟨.ofWord l.text, ⟨offset, byteLength l.text⟩, line⟩ (linesFrom next line ls)
    | .comment => linesFrom next line ls
    | .blank => linesFrom next line ls

theorem linesAt_of_none {c next : Cursor} (h : c.advance = (none, next)) : linesAt c = [[]] := by
  rw [linesAt]
  split
  · rfl
  · rename_i heq
    exact absurd (h.symm.trans heq) (by simp)

theorem linesAt_of_some {c next : Cursor} {s : Stretch} (h : c.advance = (some s, next)) :
    linesAt c =
      match s.kind with
      | .newline => [] :: linesAt next
      | .word =>
        Text.consFirst ⟨.ofWord (takeBytes s.length c.rest), ⟨c.offset, s.length⟩, c.line⟩
          (linesAt next)
      | .comment => linesAt next
      | .blank => linesAt next := by
  rw [linesAt]
  split
  · rename_i heq
    exact absurd (h.symm.trans heq) (by simp)
  · rename_i heq
    obtain ⟨hs, rfl⟩ := Prod.mk.inj (h.symm.trans heq)
    obtain rfl := Option.some.inj hs
    rfl

/-- The tokens that are read from a cursor between two lexemes are those of the lexemes that are
left. -/
theorem linesAt_eq {c : Cursor} {source : String} {before : List Char}
    (h : c.StandsAt source before []) :
    linesAt c =
      linesFrom (byteLength before) (1 + before.count '\n') (Lexeme.scan c.rest) := by
  induction hscan : Lexeme.scan c.rest generalizing c before with
  | nil =>
    rw [linesAt_of_none (Cursor.advance_of_nil (Lexeme.eq_nil_of_scan hscan))]
    rfl
  | cons l ls ih =>
    obtain ⟨hstretch, hstands, hrest⟩ := h.advance_of_scan hscan
    obtain ⟨hmunched, hchars, _⟩ := Lexeme.munched_of_scan hscan
    have hoffset : c.offset = byteLength before := by
      rw [h.offset_eq, List.append_nil]
    have hline : c.line = 1 + before.count '\n' := by
      rw [h.line_eq, List.append_nil]
    have hword : takeBytes (byteLength l.text) c.rest = l.text := by
      rw [hchars, takeBytes_append]
    have hnext := ih hstands hrest
    rw [byteLength_append, List.count_append, hmunched.count_newline] at hnext
    rw [linesAt_of_some (Prod.ext hstretch rfl), linesFrom]
    simp only [Lexeme.stretch, hword, hoffset, hline, hnext]
    cases hk : l.kind <;> rfl

/-- The tokens of a source are those of its scanned lexemes. -/
theorem lines_eq_linesFrom (source : String) :
    lines source = linesFrom 0 1 (Lexeme.scan source.toList) :=
  linesAt_eq (Cursor.standsAt_start source)

end Token

end Mailbox
