import Mailbox.Assembly.SymbolTable
import Mailbox.Instruction
set_option autoImplicit false

/-!
# Listings

A table of the first mailboxes of an image, one row each: address, word, instruction and label.

Normative source: SPEC_FULL.md, section A6.6.  It speaks of every mailbox; a listing has as many as
the program takes.
-/

namespace Mailbox.Listing

/-- The first line of a listing. -/
def header : String := "addr  word  instruction  label\n"

/-- The assembly text of a word.  Words that are no instructions are data. -/
def wordText (w : Word) : String :=
  match Instruction.decode? w with
  | some i => i.text
  | none => "DAT " ++ w.decimal

/-- The line of a mailbox. -/
def row (image : Image) (symbols : SymbolTable) (a : Address) : String :=
  let w := image.read a
  "  " ++ Text.zeroPad 2 a.val ++ "  " ++ Text.alignRight 4 w.decimal ++ "  " ++
    Text.alignLeft 11 (wordText w) ++ "  " ++ (symbols.labelAt? a.val).getD "" ++ "\n"

/-- The listing of the first mailboxes, of all if there are not so many. -/
def text (image : Image) (symbols : SymbolTable) (length : Nat) : String :=
  String.join (header :: ((List.finRange 100).take length).map (row image symbols))

end Mailbox.Listing
