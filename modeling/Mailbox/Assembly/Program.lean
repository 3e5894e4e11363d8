import Mailbox.Assembly.Encoding
set_option autoImplicit false

/-!
# Programs

Assembly in one go: read the statements, resolve their labels, encode them.  Each of the three
covers the whole source before the next begins, so the earliest one that fails gives the error.

Normative source: SPEC_FULL.md, sections 6 (`assemble`), 7 and A6.2.  Section 8 has a label without a
definition go before any error of a line; here the lines are read first.
-/

namespace Mailbox

/-- An assembled program: its image, its labels and the number of mailboxes it fills. -/
structure Program where
  image : Image
  symbols : SymbolTable
  length : Nat
  deriving DecidableEq, Repr, Inhabited

namespace Program

/-- The program of statements. -/
def ofStatements (ss : List Statement) : Except AssemblyError Program := do
  let symbols ← SymbolTable.ofStatements ss
  let image ← Image.ofStatements symbols ss
  return ⟨image, symbols, ss.length⟩

/-- The program of a source text. -/
def assemble (source : String) : Except AssemblyError Program := do
  ofStatements (← Statement.parse source)

end Program

end Mailbox
