import Mailbox.Assembly.Lexeme
import Mailbox.Assembly.Span
set_option autoImplicit false

/-!
# Cursors

Reading a source text one lexeme after the other.  A cursor moves over the characters of the text
and keeps three counts: the bytes that are left, the bytes that were left where the lexeme began,
and the lines.

Normative source: SPEC_FULL.md, section 4.1 (tokens and comments) and A1 (the cursor).
-/

namespace Mailbox

/-- What is told of a lexeme when it is read: its kind and the number of its bytes. -/
structure Stretch where
  kind : LexemeKind
  length : Nat
  deriving DecidableEq, Repr, Inhabited

/-- A place in a source text.  `rest` are the characters from there on and `left` their bytes;
`mark` is what was left at the start of the lexeme that is being read.  Lines count from one. -/
structure Cursor where
  source : String
  rest : List Char
  left : Nat
  mark : Nat
  line : Nat
  left_eq : left = byteLength rest
  deriving DecidableEq, Repr

namespace Cursor

/-- The cursor at the start of a source text. -/
def start (source : String) : Cursor where
  source := source
  rest := source.toList
  left := source.utf8ByteSize
  mark := source.utf8ByteSize
  line := 1
  left_eq := (byteLength_toList source).symm

/-- What is seen at the end of a text.  It is a character that may stand in the text as well. -/
def endMark : Char := '\x00'

/-- The next character, which is not passed, or the end mark. -/
def peek (c : Cursor) : Char := c.rest.headD endMark

/-- Whether nothing is left. -/
def isAtEnd (c : Cursor) : Bool := c.rest.isEmpty

/-- Passes the next character. -/
def bump (c : Cursor) : Option Char × Cursor :=
  match h : c.rest with
  | [] => (none, c)
  | x :: rest =>
    (some x, { c with
      rest := rest
      left := c.left - x.utf8Size
      line := if x = '\n' then c.line + 1 else c.line
      left_eq := by rw [c.left_eq, h, byteLength_cons, Nat.add_sub_cancel_left] })

theorem bump_of_nil {c : Cursor} (h : c.rest = []) : c.bump = (none, c) := by
  unfold bump
  split
  · rfl
  · rename_i heq
    exact absurd (h.symm.trans heq) (by simp)

theorem bump_of_cons {c : Cursor} {x : Char} {rest : List Char} (h : c.rest = x :: rest) :
    c.bump.1 = some x ∧ c.bump.2.rest = rest ∧ c.bump.2.source = c.source ∧
      c.bump.2.mark = c.mark ∧ c.bump.2.line = if x = '\n' then c.line + 1 else c.line := by
  unfold bump
  split
  · rename_i heq
    exact absurd (h.symm.trans heq) (by simp)
  · rename_i heq
    obtain ⟨rfl, rfl⟩ := List.cons.inj (h.symm.trans heq)
    exact ⟨rfl, rfl, rfl, rfl, rfl⟩

theorem rest_bump_of_cons {c : Cursor} {x : Char} {rest : List Char} (h : c.rest = x :: rest) :
    c.bump.2.rest = rest :=
  (bump_of_cons h).2.1

/-- Passes characters as long as they are of a class. -/
def takeWhile (p : Char → Bool) (c : Cursor) : Cursor :=
  if p c.peek && !c.isAtEnd then c.bump.2.takeWhile p else c
termination_by c.rest.length
decreasing_by
  rename_i h
  cases hrest : c.rest with
  | nil => simp [isAtEnd, hrest] at h
  | cons x rest =>
    rw [rest_bump_of_cons hrest]
    exact Nat.lt_succ_self _

/-- The bytes in front of a cursor. -/
def offset (c : Cursor) : Nat := c.source.utf8ByteSize - c.left

/-- The bytes from the start of the lexeme. -/
def lexemeBytes (c : Cursor) : Nat := c.mark - c.left

/-- Starts a new lexeme. -/
def beginLexeme (c : Cursor) : Cursor := { c with mark := c.left }

/-- Reads a lexeme.  There is none at the end of the text. -/
def advance (c : Cursor) : Option Stretch × Cursor :=
  match c.bump with
  | (none, c) => (none, c)
  | (some x, c) =>
    let kind := LexemeKind.ofChar x
    let c := c.takeWhile kind.continues
    (some ⟨kind, c.lexemeBytes⟩, c.beginLexeme)

@[simp] theorem rest_beginLexeme (c : Cursor) : c.beginLexeme.rest = c.rest := rfl

theorem takeWhile_of_nil {c : Cursor} (h : c.rest = []) (p : Char → Bool) :
    c.takeWhile p = c := by
  rw [takeWhile, if_neg (by simp [isAtEnd, h])]

theorem takeWhile_of_cons {c : Cursor} {x : Char} {rest : List Char} (h : c.rest = x :: rest)
    (p : Char → Bool) : c.takeWhile p = if p x then c.bump.2.takeWhile p else c := by
  have hpeek : c.peek = x := by rw [peek, h]; rfl
  have hend : c.isAtEnd = false := by rw [isAtEnd, h]; rfl
  rw [takeWhile, hpeek, hend, Bool.not_false, Bool.and_true]

theorem rest_takeWhile (c : Cursor) (p : Char → Bool) :
    (c.takeWhile p).rest = c.rest.dropWhile p := by
  induction hrest : c.rest generalizing c with
  | nil => rw [takeWhile_of_nil hrest, hrest]; rfl
  | cons x rest ih =>
    rw [takeWhile_of_cons hrest, List.dropWhile_cons]
    split
    · exact ih c.bump.2 (rest_bump_of_cons hrest)
    · exact hrest

theorem advance_of_nil {c : Cursor} (h : c.rest = []) : c.advance = (none, c) := by
  rw [advance, bump_of_nil h]

theorem advance_of_cons {c : Cursor} {x : Char} {rest : List Char} (h : c.rest = x :: rest) :
    c.advance =
      (some ⟨.ofChar x, (c.bump.2.takeWhile (LexemeKind.ofChar x).continues).lexemeBytes⟩,
        (c.bump.2.takeWhile (LexemeKind.ofChar x).continues).beginLexeme) := by
  have hbump : c.bump = (some x, c.bump.2) := Prod.ext (bump_of_cons h).1 rfl
  unfold advance
  rw [hbump]

/-- A lexeme has characters. -/
theorem length_rest_advance {c : Cursor} {s : Stretch} {next : Cursor}
    (h : c.advance = (some s, next)) : next.rest.length < c.rest.length := by
  cases hrest : c.rest with
  | nil =>
    rw [advance_of_nil hrest] at h
    exact absurd (Prod.mk.inj h).1 (by simp)
  | cons x rest =>
    rw [advance_of_cons hrest] at h
    obtain rfl := (Prod.mk.inj h).2
    rw [rest_beginLexeme, rest_takeWhile, rest_bump_of_cons hrest]
    exact Nat.lt_succ_of_le (List.dropWhile_suffix _).length_le

end Cursor

end Mailbox
