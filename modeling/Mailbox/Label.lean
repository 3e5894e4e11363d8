import Mailbox.Mnemonic
set_option autoImplicit false

/-!
# Label names

A label starts with a letter or an underscore, goes on with letters, digits and underscores, and
is no mnemonic.  Letters and digits are those of ASCII.

Normative source: SPEC_FULL.md, section A7.
-/

namespace Mailbox

/-- A character that may stand in an identifier. -/
def isIdentifierChar (c : Char) : Bool :=
  c.isAlphanum || c == '_'

/-- Whether a name may be used as a label. -/
def isLabelName (s : String) : Bool :=
  match s.toList with
  | [] => false
  | c :: cs =>
    (c.isAlpha || c == '_') && cs.all isIdentifierChar && (Mnemonic.ofName? s).isNone

end Mailbox
