import Mailbox.Assembly.SymbolTable
import Mailbox.Image
set_option autoImplicit false

/-!
# Encoding

The words of statements.  An operation is its base word plus an address between 0 and 99; data is
its operand as it stands, or zero.

Normative source: SPEC_FULL.md, section 4.3, its opcode table, and A6.1.
-/

namespace Mailbox

namespace Statement

/-- The value of the operand, if there is one. -/
def operandValue (s : Statement) (table : SymbolTable) : Except AssemblyError (Option Word) :=
  match s.operand with
  | none => .ok none
  | some (.literal value _) => .ok (some value)
  | some (.label label) =>
    match table.address? label.name with
    | some n => .ok (some (Word.ofBits n))
    | none => .error ⟨s.line, label.span, .undefinedLabel label.name⟩

/-- The error of a statement that lacks a required operand or has a forbidden one. -/
def arityError? (s : Statement) : Option AssemblyError :=
  match s.mnemonic.arity, s.operand with
  | .required, none => some ⟨s.line, s.mnemonicSpan, .operandRequired s.mnemonic⟩
  | .forbidden, some operand => some ⟨s.line, operand.span, .operandForbidden s.mnemonic⟩
  | _, _ => none

/-- The word of a statement.  An undefined label counts before a wrong number of operands, and
that before an address out of range. -/
def encode (s : Statement) (table : SymbolTable) : Except AssemblyError Word := do
  let value ← s.operandValue table
  match s.arityError? with
  | some e => .error e
  | none =>
    match s.mnemonic.base?, value with
    | none, value => .ok (value.getD 0)
    | some base, none => .ok base
    | some base, some value =>
      if 0 ≤ value.val ∧ value.val < 100 then .ok (base + value)
      else .error ⟨s.line, (s.operand.map Operand.span).getD s.span, .operandOutOfRange value⟩

end Statement

namespace Image

/-- Writes the words of statements to the addresses from `n` on. -/
def encodeFrom (table : SymbolTable) (image : Image) (n : Nat) :
    List Statement → Except AssemblyError Image
  | [] => .ok image
  | s :: ss =>
    if h : n < 100 then do
      let w ← s.encode table
      encodeFrom table (image.write ⟨n, h⟩ w) (n + 1) ss
    else .error ⟨s.line, s.span, .addressOverflow⟩

/-- The image of a program.  Mailboxes after its last statement stay zero. -/
def ofStatements (table : SymbolTable) (ss : List Statement) : Except AssemblyError Image :=
  zero.encodeFrom table 0 ss

end Image

end Mailbox
