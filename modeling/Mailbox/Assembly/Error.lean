import Mailbox.Assembly.Token
set_option autoImplicit false

/-!
# Assembly errors

The ways in which assembly fails, with the place at fault and the words for it.

Normative source: SPEC_FULL.md, sections 7 and A2.

Scope: an error has its place, its code and its words.  Drawing them around the source text is left
to whoever shows them.
-/

namespace Mailbox

/-- What is wrong with a source text. -/
inductive AssemblyFault where
  | unknownMnemonic (name : String)
  | malformedOperand (text : String)
  | invalidLabel (text : String)
  | unexpectedToken (found : Content)
  | duplicateLabel (name : String)
  | undefinedLabel (name : String)
  | addressOverflow
  | operandOutOfRange (value : Word)
  | operandRequired (mnemonic : Mnemonic)
  | operandForbidden (mnemonic : Mnemonic)
  deriving DecidableEq, Repr, Inhabited

namespace AssemblyFault

/-- Whether a fault lies in the form of a line. -/
def isParseFault : AssemblyFault → Bool
  | .unknownMnemonic _ | .malformedOperand _ | .invalidLabel _ | .unexpectedToken _ => true
  | .duplicateLabel _ | .undefinedLabel _ | .addressOverflow => false
  | .operandOutOfRange _ | .operandRequired _ | .operandForbidden _ => false

/-- The fault in words. -/
def text : AssemblyFault → String
  | .unknownMnemonic name => s!"Unknown mnemonic `{name}`"
  | .malformedOperand text => s!"Malformed operand `{text}`"
  | .invalidLabel text => s!"Invalid label `{text}`"
  | .unexpectedToken found => s!"Unexpected {found.description}"
  | .duplicateLabel name => s!"Duplicate label `{name}`"
  | .undefinedLabel name => s!"Undefined label `{name}`"
  | .addressOverflow => "Program does not fit in 100 mailboxes"
  | .operandOutOfRange value => s!"Operand {value.decimal} is not an address between 0 and 99"
  | .operandRequired mnemonic => s!"{mnemonic.name} requires an operand"
  | .operandForbidden mnemonic => s!"{mnemonic.name} does not take an operand"

/-- The code of the kind of fault. -/
def code : AssemblyFault → String
  | .unknownMnemonic _ => "parse::unknown_mnemonic"
  | .malformedOperand _ => "parse::bad_operand"
  | .invalidLabel _ => "parse::bad_label"
  | .unexpectedToken _ => "parse::unexpected_token"
  | .duplicateLabel _ => "resolve::duplicate_label"
  | .undefinedLabel _ => "resolve::undefined_label"
  | .addressOverflow => "resolve::address_overflow"
  | .operandOutOfRange _ => "encode::operand_range"
  | .operandRequired _ => "encode::operand_required"
  | .operandForbidden _ => "encode::operand_forbidden"

/-- Advice for the author of the source text. -/
def help : AssemblyFault → String
  | .unknownMnemonic _ => "check the list of available mnemonics in the documentation."
  | .malformedOperand _ => "operands are decimal literals like 42 or -3, or label names."
  | .invalidLabel _ => "labels start with a letter or _ and contain only letters, digits and _."
  | .unexpectedToken _ => "lines hold at most a label, a mnemonic and one operand."
  | .duplicateLabel _ => "labels are only allowed once per file."
  | .undefinedLabel _ => "define the label at the start of a line before using it as an operand."
  | .addressOverflow => "every instruction and DAT takes one of the 100 mailboxes."
  | .operandOutOfRange _ => "address operands must be between 0 and 99."
  | .operandRequired _ => "this mnemonic needs an address or label operand."
  | .operandForbidden _ => "this mnemonic does not take an operand."

/-- The note beside the part of the source at fault. -/
def caption : AssemblyFault → String
  | .unknownMnemonic _ => "unknown mnemonic"
  | .malformedOperand _ => "malformed operand"
  | .invalidLabel _ => "invalid label"
  | .unexpectedToken _ => "unexpected token"
  | .duplicateLabel _ => "duplicate label"
  | .undefinedLabel _ => "undefined label"
  | .addressOverflow => "no mailbox left for this line"
  | .operandOutOfRange _ => "out-of-range operand"
  | .operandRequired _ => "missing operand"
  | .operandForbidden _ => "unexpected operand"

end AssemblyFault

/-- A fault and its place in the source. -/
structure AssemblyError where
  line : Nat
  span : Span
  fault : AssemblyFault
  deriving DecidableEq, Repr, Inhabited

namespace AssemblyError

/-- The error as one line, its place first. -/
def message (e : AssemblyError) : String :=
  s!"line {e.line}: {e.fault.text}"

/-- The error as one line, its place last. -/
def summary (e : AssemblyError) : String :=
  s!"{e.fault.text} (line {e.line})"

end AssemblyError

/-- The error that puts a fault on a token. -/
def Token.error (t : Token) (fault : AssemblyFault) : AssemblyError :=
  ⟨t.line, t.span, fault⟩

end Mailbox
