import Mailbox.Assembly.Cursor
import Mailbox.Label
import Mailbox.Text.Numeral
import Mailbox.Text.Pieces
set_option autoImplicit false

/-!
# Tokens

The words of a source text with what they say and where they stand.  A word that starts with a
digit or a sign has to be a numeral; any other word made of identifier characters is an
identifier.

Normative source: SPEC_FULL.md, section 4.1.
-/

namespace Mailbox

/-- What a word says. -/
inductive Content where
  | identifier (name : String)
  | literal (value : Word)
  | malformed (text : String)
  deriving DecidableEq, Repr, Inhabited

namespace Content

/-- A character that a numeral may start with. -/
def startsNumeral (c : Char) : Bool :=
  c.isDigit || c == '-' || c == '+'

/-- What the characters of a word say. -/
def ofWord (cs : List Char) : Content :=
  if cs.head?.any startsNumeral then
    match Text.readWord cs with
    | .ok value => .literal value
    | .error _ => .malformed (String.ofList cs)
  else if cs.all isIdentifierChar then .identifier (String.ofList cs)
  else .malformed (String.ofList cs)

/-- The text of a word; that of a numeral is the decimal text of its value. -/
def text : Content → String
  | .identifier name => name
  | .literal value => value.decimal
  | .malformed text => text

/-- How messages speak of a word. -/
def description : Content → String
  | .identifier name => s!"identifier `{name}`"
  | .literal value => s!"literal `{value.decimal}`"
  | .malformed text => s!"`{text}`"

end Content

/-- A word with its place in the source.  Lines count from one. -/
structure Token where
  content : Content
  span : Span
  line : Nat
  deriving DecidableEq, Repr, Inhabited

namespace Token

/-- The mnemonic a token spells. -/
def mnemonic? (t : Token) : Option Mnemonic :=
  match t.content with
  | .identifier name => Mnemonic.ofName? name
  | .literal _ => none
  | .malformed _ => none

/-- The tokens of what is left of a source, one list for each line.  A word is cut out of the
source where it was read. -/
def linesAt (c : Cursor) : List (List Token) :=
  match _h : c.advance with
  | (none, _) => [[]]
  | (some s, next) =>
    match s.kind with
    | .newline => [] :: linesAt next
    | .word =>
      Text.consFirst ⟨.ofWord (takeBytes s.length c.rest), ⟨c.offset, s.length⟩, c.line⟩
        (linesAt next)
    | .comment => linesAt next
    | .blank => linesAt next
termination_by c.rest.length
decreasing_by all_goals exact Cursor.length_rest_advance _h

/-- The tokens of each line of a source text. -/
def lines (source : String) : List (List Token) :=
  linesAt (.start source)

end Token

end Mailbox
