import Mailbox.Assembly.Statement
import Mailbox.Proofs.Assembly.ExactSpan
set_option autoImplicit false

/-!
# Joining sources

What is read from two sources with a newline between them.  Nothing is carried over a newline but
the number of the line and the offset, so the second source is read as if it stood alone, and what
is read from it stands further down.  Main statement: the statements of the joined source are those
of its two parts, the latter moved, and so is the first error.
-/

namespace Mailbox

/-! ## Text that stands further down -/

/-- The lines and bytes that come to stand in front of a text. -/
structure Shift where
  lines : Nat
  bytes : Nat
  deriving DecidableEq, Repr

/-- What stands in front of the text behind a source and a newline. -/
def Shift.past (source : String) : Shift :=
  ⟨1 + source.toList.count '\n', source.utf8ByteSize + 1⟩

def Token.shift (d : Shift) (t : Token) : Token :=
  { t with span := t.span.shift d.bytes, line := t.line + d.lines }

def Label.shift (d : Shift) (l : Label) : Label :=
  { l with span := l.span.shift d.bytes }

def Operand.shift (d : Shift) : Operand → Operand
  | .literal value span => .literal value (span.shift d.bytes)
  | .label l => .label (l.shift d)

def AssemblyError.shift (d : Shift) (e : AssemblyError) : AssemblyError :=
  { e with span := e.span.shift d.bytes, line := e.line + d.lines }

def Statement.shift (d : Shift) (s : Statement) : Statement where
  label := s.label.map (Label.shift d)
  mnemonic := s.mnemonic
  mnemonicSpan := s.mnemonicSpan.shift d.bytes
  operand := s.operand.map (Operand.shift d)
  line := s.line + d.lines
  span := s.span.shift d.bytes

/-- What reading a text comes to when it stands further down. -/
def Shift.result {α : Type} (d : Shift) (move : α → α) :
    Except AssemblyError α → Except AssemblyError α
  | .ok x => .ok (move x)
  | .error e => .error (e.shift d)

/-- A result that stands further down may be used where it stands, if its uses move along. -/
theorem Shift.result_bind {α β : Type} {d : Shift} {moveFirst : α → α} {move : β → β}
    {use moved : α → Except AssemblyError β}
    (h : ∀ x, moved (moveFirst x) = d.result move (use x)) (r : Except AssemblyError α) :
    d.result moveFirst r >>= moved = d.result move (r >>= use) := by
  cases r with
  | error e => rfl
  | ok x => exact h x

/-! ## Lines of tokens -/

namespace Token

/-- Lexemes that stand further down have the same tokens further down. -/
theorem linesFrom_shift (d : Shift) (offset line : Nat) (ls : List Lexeme) :
    linesFrom (offset + d.bytes) (line + d.lines) ls =
      (linesFrom offset line ls).map (List.map (shift d)) := by
  induction ls generalizing offset line with
  | nil => rfl
  | cons l ls ih =>
    have hnext : offset + d.bytes + byteLength l.text = offset + byteLength l.text + d.bytes :=
      Nat.add_right_comm _ _ _
    have hline : line + d.lines + 1 = line + 1 + d.lines := Nat.add_right_comm _ _ _
    simp only [linesFrom, hnext, hline, ih]
    cases l.kind with
    | word =>
      exact (Text.map_consFirst (shift d) ⟨.ofWord l.text, ⟨offset, byteLength l.text⟩, line⟩ _).symm
    | newline | comment | blank => rfl

theorem tokensFrom_append_newline (line offset : Nat) (ps qs : List PlacedChar) :
    SourceLine.tokensFrom line (ps ++ ⟨'\n', offset⟩ :: qs) =
      SourceLine.tokensFrom line ps ++
        SourceLine.tokensFrom (line + (ps.countP (·.char == '\n') + 1)) qs := by
  unfold SourceLine.tokensFrom
  rw [Text.separated_append_cons (by rfl), List.zipIdx_append, List.map_append,
    Text.length_separated]

/-- The lines of a joined source are the lines of its parts. -/
theorem lines_join (a b : String) :
    lines (a ++ "\n" ++ b) = lines a ++ (lines b).map (List.map (shift (.past a))) := by
  have hchars : (a ++ "\n" ++ b).toList = a.toList ++ '\n' :: b.toList := by simp
  have hplace : place 0 (a.toList ++ '\n' :: b.toList) =
      place 0 a.toList ++ ⟨'\n', byteLength a.toList⟩ :: place (0 + (Shift.past a).bytes) b.toList := by
    rw [place_append, place_cons, byteLength_toList, Nat.zero_add, Nat.zero_add]
    rfl
  have hcount : (place 0 a.toList).countP (·.char == '\n') = a.toList.count '\n' := by
    have hmap := List.countP_map (p := (· == '\n')) (f := PlacedChar.char) (l := place 0 a.toList)
    rw [map_char_place] at hmap
    exact hmap.symm
  simp only [lines_eq_linesFrom]
  rw [hchars, SourceLine.linesFrom_scan, hplace, tokensFrom_append_newline, hcount,
    ← SourceLine.linesFrom_scan, ← SourceLine.linesFrom_scan, Nat.add_comm _ 1]
  exact congrArg _ (linesFrom_shift (.past a) 0 1 _)

/-! ## Words that stand further down -/

variable (d : Shift)

theorem mnemonic?_shift (t : Token) : (t.shift d).mnemonic? = t.mnemonic? := rfl

end Token

theorem Operand.ofToken_shift (d : Shift) (t : Token) :
    ofToken (t.shift d) = d.result (shift d) (ofToken t) := by
  obtain ⟨content, span, line⟩ := t
  cases content with
  | literal value => rfl
  | malformed text => rfl
  | identifier name =>
    simp only [ofToken, Token.shift]
    split <;> rfl

theorem Label.ofToken_shift (d : Shift) (t : Token) :
    ofToken (t.shift d) = d.result (shift d) (ofToken t) := by
  obtain ⟨content, span, line⟩ := t
  cases content with
  | literal value => rfl
  | malformed text => rfl
  | identifier name =>
    simp only [ofToken, Token.shift]
    split <;> rfl

namespace Statement

variable (d : Shift)

theorem operandOfTokens_shift (ts : List Token) :
    operandOfTokens (ts.map (Token.shift d)) =
      d.result (Option.map (Operand.shift d)) (operandOfTokens ts) := by
  cases ts with
  | nil => rfl
  | cons t rest =>
    rw [List.map_cons, operandOfTokens, Operand.ofToken_shift, operandOfTokens]
    refine Shift.result_bind (fun operand => ?_) _
    cases rest <;> rfl

theorem missingMnemonic_shift (first : Token) (rest : List Token) :
    missingMnemonic (first.shift d) (rest.map (Token.shift d)) =
      (missingMnemonic first rest).shift d := by
  obtain ⟨content, span, line⟩ := first
  cases content with
  | literal value => rfl
  | malformed text => rfl
  | identifier name =>
    rcases rest with _ | ⟨⟨second, _, _⟩, _⟩
    · rfl
    · cases second <;> rfl

/-- A line that stands further down is read alike. -/
theorem ofTokens_shift (first : Token) (rest : List Token) :
    ofTokens (first.shift d) (rest.map (Token.shift d)) =
      d.result (shift d) (ofTokens first rest) := by
  have hlast : (first.shift d :: rest.map (Token.shift d)).getLast (by simp) =
      ((first :: rest).getLast (by simp)).shift d :=
    List.getLast_map (f := Token.shift d) (l := first :: rest) (by simp)
  have hspan : (first.shift d).span.join (((first :: rest).getLast (by simp)).shift d).span =
      (first.span.join ((first :: rest).getLast (by simp)).span).shift d.bytes :=
    Span.join_shift _ _ _
  unfold ofTokens
  simp only [hlast, hspan, Token.mnemonic?_shift]
  cases first.mnemonic? with
  | some m =>
    simp only [operandOfTokens_shift]
    refine Shift.result_bind (fun operand => ?_) _
    rfl
  | none =>
    cases rest with
    | nil => exact congrArg _ (missingMnemonic_shift d first [])
    | cons second others =>
      simp only [List.map_cons, Token.mnemonic?_shift]
      cases second.mnemonic? with
      | none => exact congrArg _ (missingMnemonic_shift d first (second :: others))
      | some m =>
        simp only [Label.ofToken_shift, operandOfTokens_shift]
        refine Shift.result_bind (fun label => ?_) _
        refine Shift.result_bind (fun operand => ?_) _
        rfl

/-! ## Lines of a joined source -/

theorem ofLines_shift (lines : List (List Token)) :
    ofLines (lines.map (List.map (Token.shift d))) =
      d.result (List.map (shift d)) (ofLines lines) := by
  induction lines with
  | nil => rfl
  | cons line lines ih =>
    cases line with
    | nil => exact ih
    | cons first rest =>
      rw [List.map_cons, List.map_cons, ofLines, ofTokens_shift, ih, ofLines]
      refine Shift.result_bind (fun s => ?_) _
      refine Shift.result_bind (fun ss => ?_) _
      rfl

theorem ofLines_append (lines more : List (List Token)) :
    ofLines (lines ++ more) = do
      let ss ← ofLines lines
      let ts ← ofLines more
      return ss ++ ts := by
  induction lines with
  | nil => exact (bind_pure (ofLines more)).symm
  | cons line lines ih =>
    cases line with
    | nil => exact ih
    | cons first rest =>
      rw [List.cons_append, ofLines, ih, ofLines]
      simp only [bind_assoc, pure_bind, List.cons_append]

/-- A source and a newline do not change how the text behind them is read: the first error of the
two parts is the error of both, and their statements follow each other, with the lines and spans of
the second part moved behind the first one. -/
theorem parse_join (a b : String) :
    parse (a ++ "\n" ++ b) =
      match parse a, parse b with
      | .error e, _ => .error e
      | .ok _, .error e => .error (e.shift (.past a))
      | .ok ss, .ok ts => .ok (ss ++ ts.map (shift (.past a))) := by
  unfold parse
  rw [Token.lines_join, ofLines_append, ofLines_shift]
  cases ofLines (Token.lines a) with
  | error e => rfl
  | ok ss => cases ofLines (Token.lines b) <;> rfl

end Statement

end Mailbox
