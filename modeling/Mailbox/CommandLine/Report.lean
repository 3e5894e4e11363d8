import Mailbox.Assembly.Error
import Mailbox.Files.Search
import Mailbox.Image.Object
import Mailbox.Session.Basic
set_option autoImplicit false

/-!
# Reports

What a command leaves behind: its exit code, the text it writes, the errors it names, the trace,
and the disk.

Normative source: SPEC_FULL.md, sections A2 and A3.

Scope: an error has its words.  The lines that are drawn around it are left out.
-/

namespace Mailbox

/-- An error that a command names. -/
inductive Diagnostic where
  | file (fault : FileFault)
  | notText
  | object (fault : Image.ObjectFault)
  | assembly (error : AssemblyError)
  | noExtension
  | unknownExtension
  | session (fault : SessionFault)
  | terminal (text : String)
  | machine (text : String) (pc : Nat) (acc : Word)
  | unfinished
  | search (fault : SearchFault)
  | noMatch (pattern : String)
  | failedFiles (count : Nat)
  | nothingToWatch
  deriving DecidableEq, Repr

/-- The error in words. -/
def Diagnostic.message : Diagnostic → String
  | .file fault => fault.message
  | .notText => "stream did not contain valid UTF-8"
  | .object fault => fault.message
  | .assembly error => error.summary
  | .noExtension => "File has no extension. Exiting..."
  | .unknownExtension => "File has unknown extension. Exiting..."
  | .session fault => fault.message
  | .terminal text => text
  | .machine text pc acc => s!"{text} at address {pc} (accumulator {acc.decimal})"
  | .unfinished => "Step counter is full"
  | .search fault => fault.message
  | .noMatch text => s!"No files match `{text}`"
  | .failedFiles count => s!"{count} file(s) failed to assemble"
  | .nothingToWatch => "File does not exist. Exiting..."

/-- What a command leaves behind. -/
structure Report where
  exit : Nat
  output : String
  errors : List Diagnostic
  trace : List String
  disk : Disk
  deriving DecidableEq

namespace Report

/-- The report of a command that went well. -/
def success (disk : Disk) (output : String) : Report := ⟨0, output, [], [], disk⟩

/-- The report of a command that stopped at an error. -/
def failure (disk : Disk) (output : String) (error : Diagnostic) : Report :=
  ⟨1, output, [error], [], disk⟩

/-- The report on arguments that stand for no command. -/
def usage (disk : Disk) : Report := ⟨2, "", [], [], disk⟩

end Report

/-- A line of the command's own: a word at the right of a column, and what it is about. -/
def notice (word about : String) : String :=
  Text.alignRight 12 word ++ " " ++ about ++ "\n"

/-- A line of the command's own about a file. -/
def fileNotice (word path : String) : String :=
  notice word ("target " ++ path)

end Mailbox
