import Mailbox.Assembly.Error
set_option autoImplicit false

/-!
# Statements

A line of assembly text has at most a label, a mnemonic and an operand, in this order.  Label and
mnemonic are told apart by position: a line that starts with a mnemonic has no label, otherwise
its second word has to be the mnemonic.

Normative source: SPEC_FULL.md, section 4.1 and, for labels as operands, A6.1.
-/

namespace Mailbox

/-- A label where it is defined or used. -/
structure Label where
  name : String
  span : Span
  deriving DecidableEq, Repr, Inhabited

/-- The operand of a statement. -/
inductive Operand where
  | literal (value : Word) (span : Span)
  | label (label : Label)
  deriving DecidableEq, Repr, Inhabited

namespace Operand

/-- Where an operand stands. -/
def span : Operand → Span
  | .literal _ span => span
  | .label l => l.span

/-- Reads a word as an operand. -/
def ofToken (t : Token) : Except AssemblyError Operand :=
  match t.content with
  | .literal value => .ok (.literal value t.span)
  | .identifier name =>
    if isLabelName name then .ok (.label ⟨name, t.span⟩)
    else .error (t.error (.malformedOperand name))
  | .malformed text => .error (t.error (.malformedOperand text))

end Operand

/-- Reads a word in front of the mnemonic as a label. -/
def Label.ofToken (t : Token) : Except AssemblyError Label :=
  match t.content with
  | .identifier name =>
    if isLabelName name then .ok ⟨name, t.span⟩ else .error (t.error (.invalidLabel name))
  | .literal value => .error (t.error (.invalidLabel value.decimal))
  | .malformed text => .error (t.error (.invalidLabel text))

/-- A line of assembly text that fills one mailbox. -/
structure Statement where
  label : Option Label
  mnemonic : Mnemonic
  mnemonicSpan : Span
  operand : Option Operand
  line : Nat
  span : Span
  deriving DecidableEq, Repr, Inhabited

namespace Statement

/-- Reads the words after the mnemonic: an operand, if any, and nothing else.  A malformed
operand counts before the words that follow it. -/
def operandOfTokens : List Token → Except AssemblyError (Option Operand)
  | [] => .ok none
  | t :: rest => do
    let operand ← Operand.ofToken t
    match rest with
    | [] => .ok (some operand)
    | extra :: _ => .error (extra.error (.unexpectedToken extra.content))

/-- The error of a line without a mnemonic in its first two words.  Two identifiers look like a
label and a misspelled mnemonic; otherwise the first word is at fault. -/
def missingMnemonic (first : Token) (rest : List Token) : AssemblyError :=
  match first.content with
  | .identifier name =>
    match rest with
    | ⟨.identifier other, span, line⟩ :: _ => ⟨line, span, .unknownMnemonic other⟩
    | _ => first.error (.unknownMnemonic name)
  | .malformed text => first.error (.unknownMnemonic text)
  | .literal value => first.error (.unexpectedToken (.literal value))

/-- Reads the words of a line that has some. -/
def ofTokens (first : Token) (rest : List Token) : Except AssemblyError Statement :=
  let span := first.span.join ((first :: rest).getLast (by simp)).span
  match first.mnemonic? with
  | some m => do
    let operand ← operandOfTokens rest
    return ⟨none, m, first.span, operand, first.line, span⟩
  | none =>
    match rest with
    | [] => .error (missingMnemonic first rest)
    | second :: others =>
      match second.mnemonic? with
      | none => .error (missingMnemonic first rest)
      | some m => do
        let label ← Label.ofToken first
        let operand ← operandOfTokens others
        return ⟨some label, m, second.span, operand, first.line, span⟩

/-- Reads lines in order.  Lines without words are passed over, and the first error counts. -/
def ofLines : List (List Token) → Except AssemblyError (List Statement)
  | [] => .ok []
  | [] :: lines => ofLines lines
  | (first :: rest) :: lines => do
    let s ← ofTokens first rest
    let ss ← ofLines lines
    return s :: ss

/-- The statements of a source text. -/
def parse (source : String) : Except AssemblyError (List Statement) :=
  ofLines (Token.lines source)

end Statement

end Mailbox
