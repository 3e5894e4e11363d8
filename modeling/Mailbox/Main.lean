import Mailbox.CommandLine.Execution
set_option autoImplicit false

/-!
# The program

The outer layer: it finds out what stands at the paths of a command, carries the command out, and
writes down what comes of it.  A program that runs gets its standard input line by line, and its
text appears as it is written; at a terminal a line that is no number is complained about and may be
typed again.

Normative source: SPEC_FULL.md, sections A3, A4 and A6.

Scope: folders are not listed here, so wildcards are left to the shell; the keys of a terminal are
not read one by one, so a character is the first one of a line; and a watched file is not looked at
again.
-/

namespace Mailbox

/-- The paths that a command works on. -/
def Command.paths : Command → List String
  | .run path _ => [path]
  | .compile path destination => [path, destination.getD (Path.withExtension path "lmo")]
  | .check patterns => patterns
  | .dump path => [path]
  | .watch path => [path]
  | .welcome | .version | .help => []

/-- The paths of the folders on the way to a path, and the path itself. -/
def pathsOnTheWay (path : String) : List String :=
  let pieces := Path.pieces path
  ((List.range pieces.length).map fun n => "/".intercalate (pieces.take (n + 1))).filter (· != "")

/-- Finds out what stands at a path. -/
def probe (path : String) : IO (Option Node) := do
  try
    return some (.file (← IO.FS.readBinFile path))
  catch e =>
    match e with
    | .inappropriateType _ code _ => return if code = 21 then some .folder else none
    | _ => return none

/-- Puts what stands at a path on a disk. -/
def Disk.addProbed (disk : Disk) (path : String) : IO Disk := do
  match ← probe path with
  | some node => return disk.put ((Path.pieces path).foldl Place.enter (start path)) node
  | none => return disk

/-- The disk as far as a command may look at it. -/
def Command.lookAround (command : Command) : IO Disk :=
  (command.paths.flatMap pathsOnTheWay).foldlM Disk.addProbed .empty

/-- Names errors. -/
def complain (errors : List Diagnostic) : IO Unit :=
  errors.forM fun e => IO.eprintln ("Error: " ++ e.message)

/-- Where a program gets the values from that it asks for. -/
inductive Source where
  | argument
  | piped
  | terminal
  deriving DecidableEq

/-- The source of the values for a run. -/
def RunOptions.source (options : RunOptions) : IO Source := do
  if options.input.isSome then return .argument
  return if ← (← IO.getStdin).isTty then .terminal else .piped

/-- The key that a line stands for, where keys cannot be read one by one: its first character. -/
def Key.ofLine (line : String) : Key :=
  match line.toList.head? with
  | some c => if c = '\n' || c = '\r' then .enter else .char c
  | none => .enter

/-- Asks at the terminal for the value that a status asks for, until there is one or the input is
at its end. -/
partial def Status.ask (status : Status) : IO Input := do
  let line ← (← IO.getStdin).getLine
  if line.isEmpty then return ⟨[]⟩
  let typed := (Input.ofBytes line.toUTF8).waiting
  let (supply?, t) := (Terminal.fresh typed [Key.ofLine line] "").give status
  t.complaints.forM fun complaint => IO.eprintln complaint
  match supply? with
  | some supply => return ⟨[supply]⟩
  | none => status.ask

/-- The input for the next pass of a session that asks for a value. -/
def Session.fetch (s : Session) : Source → IO Input
  | .argument => return s.input
  | .piped => return Input.ofBytes (← (← IO.getStdin).getLine).toUTF8
  | .terminal => s.machine.step.status.ask

/-- Whether the next pass of a session asks for a value that is not there yet. -/
def Session.isStarved (s : Session) : Bool :=
  s.exhaustedLimit?.isNone && s.machine.step.status.isAwaiting && s.input.waiting.isEmpty

/-- Writes text at once. -/
def putText (text : String) : IO Unit := do
  let stdout ← IO.getStdout
  stdout.putStr text
  stdout.flush

/-- Runs a session, with its text and trace written as they come: what it writes before it waits
for a value is there before the value is read. -/
partial def Session.play (s : Session) (source : Source) : IO (Session × Option Outcome) := do
  let asking := if s.isStarved then s.pass.1 else s
  asking.trace.forM fun e => IO.eprintln e.line
  putText asking.transcript.text
  let s ← if s.isStarved then do pure { s with input := ← s.fetch source } else pure s
  let (next, outcome) := s.pass
  (next.trace.drop asking.trace.size).forM fun e => IO.eprintln e.line
  putText ((next.transcript.text.drop asking.transcript.text.length).copy)
  let next := { next with trace := #[], transcript := next.transcript.handOn }
  if outcome.isSome || next.steps = capacity then return (next, outcome)
  else next.play source

/-- Carries out the running of a program. -/
def playRun (w : Surroundings) (path : String) (options : RunOptions) : IO UInt32 := do
  IO.print (Launch.announcement path options.minimal)
  match Launch.prepare w path options with
  | .error e =>
    complain [e]
    return 1
  | .ok l =>
    IO.print l.opening
    let (final, outcome) ← l.session.play (← options.source)
    IO.print (l.closing outcome)
    let errors := (Launch.error? final outcome).toList
    complain errors
    return if errors.isEmpty then 0 else 1

/-- Writes down what came of a command. -/
def Report.deliver (r : Report) (before : Disk) : IO UInt32 := do
  (r.disk.newFiles before).forM fun f => IO.FS.writeBinFile ("/".intercalate f.1) f.2
  IO.print r.output
  complain r.errors
  return UInt32.ofNat r.exit

/-- Carries out a command. -/
def Command.carryOut (command : Command) : IO UInt32 := do
  let disk ← command.lookAround
  let tracing ← IO.getEnv "LMINC_TRACE"
  let limit ← IO.getEnv "LMINC_STEP_LIMIT"
  let w : Surroundings :=
    { disk := disk, settings := Settings.ofTexts tracing limit, stdin := .empty }
  match command with
  | .run path options => playRun w path options
  | other => (other.execute w).deliver disk

end Mailbox

/-- Reads the command line and carries out the command it stands for. -/
def main (args : List String) : IO UInt32 := do
  match Mailbox.Command.ofArguments? args with
  | some command => command.carryOut
  | none =>
    IO.eprintln Mailbox.helpText
    return 2
