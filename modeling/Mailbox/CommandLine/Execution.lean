import Mailbox.Assembly.Program
import Mailbox.CommandLine.Arguments
import Mailbox.CommandLine.Report
import Mailbox.Listing
import Mailbox.Session.Terminal
import Mailbox.Settings
set_option autoImplicit false

/-!
# Execution of commands

What each command does, as a function of the files, the settings and the standard input.

Normative source: SPEC_FULL.md, sections A3, A4, A6.5, A6.6 and A6.7.  Beside the extensions of
section A6.5, `asm` stands for a source too.

Scope: whatever a command writes is taken in, so no command fails over its output.  The output is
no terminal, so it has no colours.  Of watching a file there is the opening alone, and the help has
a text of its own.
-/

namespace Mailbox

/-- What a command has to work with. -/
structure Surroundings where
  disk : Disk
  settings : Settings
  stdin : ByteArray
  deriving Inhabited

/-! ## Loading programs -/

/-- Reads and assembles a source file. -/
def Disk.loadSource (disk : Disk) (path : String) : Except Diagnostic Program :=
  match disk.read path with
  | .error fault => .error (.file fault)
  | .ok content =>
    match String.fromUTF8? content with
    | none => .error .notText
    | some source =>
      match Program.assemble source with
      | .ok program => .ok program
      | .error e => .error (.assembly e)

/-- Reads an object file. -/
def Disk.loadObject (disk : Disk) (path : String) : Except Diagnostic Program :=
  match disk.read path with
  | .error fault => .error (.file fault)
  | .ok content =>
    match Image.ofObject content with
    | .ok image => .ok ⟨image, .empty, image.usedLength⟩
    | .error fault => .error (.object fault)

/-- Reads a program from a file whose extension tells what it holds. -/
def Disk.load (disk : Disk) (path : String) : Except Diagnostic Program :=
  match Path.extension? path with
  | none => .error .noExtension
  | some "lmo" => disk.loadObject path
  | some "lmc" => disk.loadSource path
  | some "txt" => disk.loadSource path
  | some "asm" => disk.loadSource path
  | some _ => .error .unknownExtension

/-! ## Running -/

/-- How a program is to be run: each setting is taken from the options or else from the
environment. -/
def Surroundings.sessionOptions (w : Surroundings) (options : RunOptions) : SessionOptions where
  minimal := options.minimal
  colored := false
  tracing := options.tracing || w.settings.tracing
  limit := options.limit.or w.settings.limit

/-- A program that is about to run. -/
structure Launch where
  path : String
  minimal : Bool
  session : Session
  deriving Inhabited

namespace Launch

/-- The command's own text, which a minimal run leaves out. -/
def frame (minimal : Bool) (text : String) : String :=
  if minimal then "" else text

/-- The text before the program is read. -/
def announcement (path : String) (minimal : Bool) : String :=
  frame minimal (fileNotice "Assembling" path)

/-- Makes a program ready to run. -/
def prepare (w : Surroundings) (path : String) (options : RunOptions) :
    Except Diagnostic Launch := do
  let program ← w.disk.load path
  let input := match options.input with
    | some argument => Input.ofArgument argument
    | none => Input.ofBytes w.stdin
  return {
    path := path
    minimal := options.minimal
    session := Session.start program.image input (w.sessionOptions options) }

/-- The text before the first step. -/
def opening (l : Launch) : String :=
  frame l.minimal (notice "Running" "assembled image")

/-- The text after the last step. -/
def closing (l : Launch) : Option Outcome → String
  | some (.ended status) =>
    frame l.minimal (fileNotice (if status.isFault then "Failed" else "Completed") l.path)
  | some (.failed _) => ""
  | none => ""

/-- The error that a run ends with, if any. -/
def error? (final : Session) : Option Outcome → Option Diagnostic
  | some (.ended status) =>
    status.faultText?.map fun text => .machine text final.machine.pc final.machine.acc
  | some (.failed fault) => some (.session fault)
  | none => some .unfinished

/-- The report on a run that has stopped, with the errors that it names. -/
def report (l : Launch) (disk : Disk) (final : Session) (outcome : Option Outcome)
    (errors : List Diagnostic) : Report :=
  { exit := if errors.isEmpty then 0 else 1
    output := announcement l.path l.minimal ++ l.opening ++ final.transcript.text ++
      l.closing outcome
    errors := errors
    trace := final.trace.toList.map TraceEntry.line
    disk := disk }

end Launch

/-- Runs a program. -/
def executeRun (w : Surroundings) (path : String) (options : RunOptions) : Report :=
  match Launch.prepare w path options with
  | .error e => .failure w.disk (Launch.announcement path options.minimal) e
  | .ok l =>
    let (final, outcome) := l.session.run
    l.report w.disk final outcome (Launch.error? final outcome).toList

/-- The error of a run at a terminal, where the terminal has words of its own if there is no key. -/
def Terminal.diagnose (t : Terminal) : Diagnostic → Diagnostic
  | .session (.input .noCharacter) => .terminal t.keyFault
  | error => error

/-- Runs a program at a terminal, which is used only if no values are given as an argument. -/
def executeRunAt (w : Surroundings) (t : Terminal) (path : String) (options : RunOptions) :
    Report × Terminal :=
  match options.input, Launch.prepare { w with stdin := .empty } path options with
  | some _, _ => (executeRun w path options, t)
  | none, .error e => (.failure w.disk (Launch.announcement path options.minimal) e, t)
  | none, .ok l =>
    let (d, outcome) := (Dialogue.mk l.session t).run
    let errors := (Launch.error? d.session outcome).toList.map d.terminal.diagnose
    (l.report w.disk d.session outcome errors, d.terminal)

/-! ## The other commands -/

/-- Assembles a source file and writes its object file: makes it, and then fills it.  Nothing is
made when the source does not assemble. -/
def executeCompile (disk : Disk) (path : String) (destination : Option String) : Report :=
  let announcement := fileNotice "Assembling" path
  match disk.loadSource path with
  | .error e => .failure disk announcement e
  | .ok program =>
    let destination := destination.getD (Path.withExtension path "lmo")
    match disk.create destination with
    | .error fault => .failure disk announcement (.file fault)
    | .ok (place, created) =>
      let filling := created.fill place program.image.toObject
      match filling.fault? with
      | some fault => .failure filling.disk announcement (.file fault)
      | none =>
        .success filling.disk
          (announcement ++ notice "Finished" "emit object" ++ fileNotice "Saved" destination)

/-- The files that patterns stand for, in order.  Each pattern has to match something. -/
def Disk.searchAll (disk : Disk) : List String → Except Diagnostic (List String)
  | [] => .ok []
  | pattern :: patterns =>
    match disk.search pattern with
    | .error fault => .error (.search fault)
    | .ok [] => .error (.noMatch pattern)
    | .ok paths => do return paths ++ (← disk.searchAll patterns)

/-- What checking a file writes, and the error it finds. -/
def Disk.checkFile (disk : Disk) (path : String) : String × Option Diagnostic :=
  let announcement := fileNotice "Checking" path
  match disk.loadSource path with
  | .ok program =>
    (announcement ++ notice "Success" s!"{program.length} of 100 mailboxes used", none)
  | .error e => (announcement, some e)

/-- Checks files, each on its own. -/
def Disk.checkFiles (disk : Disk) (paths : List String) : Report :=
  let results := paths.map disk.checkFile
  let errors := results.filterMap Prod.snd
  { exit := if errors.isEmpty then 0 else 1
    output := String.join (results.map Prod.fst)
    errors := if errors.isEmpty then [] else errors ++ [.failedFiles errors.length]
    trace := []
    disk := disk }

/-- Checks the files that patterns stand for. -/
def executeCheck (disk : Disk) (patterns : List String) : Report :=
  match disk.searchAll patterns with
  | .error e => .failure disk "" e
  | .ok paths => disk.checkFiles paths

/-- Lists a program. -/
def executeDump (disk : Disk) (path : String) : Report :=
  match disk.load path with
  | .error e => .failure disk "" e
  | .ok program => .success disk (Listing.text program.image program.symbols program.length)

/-- Opens the watch on a file: clears the screen and says what is watched. -/
def executeWatch (disk : Disk) (path : String) : Report :=
  if disk.isThere path then
    .success disk ("\x1b[2J\x1b[2;1H" ++ fileNotice "Watching" path ++
      notice "Help" "press CTRL+C to exit")
  else .failure disk "" .nothingToWatch

/-- The version of the program. -/
def versionNumber : String := "0.1.0"

/-- The text for a command line without a command. -/
def welcomeText : String :=
  s!"\n~ lminc v{versionNumber} ~\n\n" ++
    "Welcome to lminc, an assembler and emulator for the LMinC mailbox computer.\n" ++
    "Please use `-h` or `--help` to access the usage instructions and documentation.\n\n"

/-- The usage instructions. -/
def helpText : String :=
  "Usage: lminc [PATH]\n" ++
  "       lminc run <NAME> [--input <VALUES>] [--minimal] [--trace] [--limit <STEPS>]\n" ++
  "       lminc compile <NAME> [DEST]\n" ++
  "       lminc check <PATTERNS>...\n" ++
  "       lminc dump <NAME>\n" ++
  "       lminc watch <NAME>\n"

/-- Does what a command asks for. -/
def Command.execute (w : Surroundings) : Command → Report
  | .welcome => .success w.disk welcomeText
  | .version => .success w.disk s!"lminc {versionNumber}\n"
  | .help => .success w.disk helpText
  | .run path options => executeRun w path options
  | .compile path destination => executeCompile w.disk path destination
  | .check patterns => executeCheck w.disk patterns
  | .dump path => executeDump w.disk path
  | .watch path => executeWatch w.disk path

/-- Does what a command line asks for. -/
def executeArguments (w : Surroundings) (args : List String) : Report :=
  match Command.ofArguments? args with
  | some command => command.execute w
  | none => .usage w.disk

/-- Does what a command line asks for, where standard input is a terminal. -/
def executeArgumentsAt (w : Surroundings) (t : Terminal) (args : List String) :
    Report × Terminal :=
  match Command.ofArguments? args with
  | some (.run path options) => executeRunAt w t path options
  | some command => (command.execute w, t)
  | none => (.usage w.disk, t)

end Mailbox
