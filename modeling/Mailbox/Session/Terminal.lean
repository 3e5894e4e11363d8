import Mailbox.Session.Basic
set_option autoImplicit false

/-!
# Terminals

Values from a user at a terminal.  When the program asks for a number the user types a line, and
may try again as long as the line is no number; when it asks for a character the user presses a
key.  What the user types and presses is given from the start, and so are the words of the fault
where no key can be read.

Normative source: SPEC_FULL.md, section A6.8.

Scope: lines and keys are two lists, however the user comes by them, and what is complained about
is kept apart from the transcript.
-/

namespace Mailbox

/-- A key that is pressed. -/
inductive Key where
  | char (c : Char)
  | enter
  | other
  deriving DecidableEq, Repr

/-- The character that a key stands for. -/
def Key.char? : Key → Option Char
  | .char c => some c
  | .enter => some '\n'
  | .other => none

/-- The value that a key stands for. -/
def Key.supply? (key : Key) : Option Supply :=
  key.char?.map fun c => .text (String.singleton c)

/-- A terminal: the lines and the keys that are still to come, the words of the fault behind the
last key, the values that the program has got, and the complaints about lines that are no
numbers. -/
structure Terminal where
  lines : List Supply
  keys : List Key
  keyFault : String
  given : List Supply
  complaints : List String
  deriving DecidableEq, Repr

namespace Terminal

/-- The terminal at which nothing has been typed yet. -/
def fresh (lines : List Supply) (keys : List Key) (keyFault : String) : Terminal :=
  ⟨lines, keys, keyFault, [], []⟩

/-- What is said about a line that is no number, before the user may try again. -/
def complaint? (line : Supply) : Option String :=
  match Input.number line with
  | .error (.badNumber text _) => some s!"Invalid number `{text}`, try again"
  | .error _ | .ok _ => none

/-- Has lines typed until there is no complaint about one. -/
def readNumber (t : Terminal) : Option Supply × Terminal :=
  let rejected := t.lines.takeWhile fun line => (complaint? line).isSome
  let rest := t.lines.dropWhile fun line => (complaint? line).isSome
  (rest.head?, { t with
    lines := rest.tail
    given := t.given ++ rest.head?.toList
    complaints := t.complaints ++ rejected.filterMap complaint? })

/-- Has keys pressed until one of them stands for a character. -/
def readKey (t : Terminal) : Option Supply × Terminal :=
  let rest := t.keys.dropWhile fun key => key.supply?.isNone
  let supply? := rest.head?.bind Key.supply?
  (supply?, { t with keys := rest.tail, given := t.given ++ supply?.toList })

/-- Gets the value that a status asks for. -/
def give (t : Terminal) : Status → Option Supply × Terminal
  | .awaitingNumber => t.readNumber
  | .awaitingChar => t.readKey
  | .running | .producedNumber | .producedChar | .halted | .endOfMemory | .invalidInstruction =>
    (none, t)

example : complaint? (.text " five ") = some "Invalid number `five`, try again" ∧
    complaint? (.text " -5 ") = none := by decide +kernel

end Terminal

/-- A session at a terminal. -/
structure Dialogue where
  session : Session
  terminal : Terminal

namespace Dialogue

/-- The dialogue in which a program is about to start. -/
def start (image : Image) (options : SessionOptions) (terminal : Terminal) : Dialogue :=
  ⟨Session.start image ⟨[]⟩ options, terminal⟩

/-- What the terminal gives for the next step, unless the limit is reached. -/
def supply (d : Dialogue) : Option Supply × Terminal :=
  match d.session.exhaustedLimit? with
  | some _ => (none, d.terminal)
  | none => d.terminal.give d.session.machine.step.status

/-- The session with the value that its next step asks for. -/
def supplied (d : Dialogue) : Session :=
  { d.session with input := ⟨d.supply.1.toList⟩ }

/-- One pass of the session, for which the terminal gives the value that its step asks for. -/
def pass (d : Dialogue) : Dialogue × Option Outcome :=
  let (session, outcome) := d.supplied.pass
  (⟨session, d.supply.2⟩, outcome)

/-- Passes until the run ends, `count` passes at most. -/
def runFor (d : Dialogue) : (count : Nat) → Dialogue × Option Outcome
  | 0 => (d, none)
  | count + 1 =>
    match d.pass with
    | (next, some outcome) => (next, some outcome)
    | (next, none) => next.runFor count

/-- Runs until the program is over or the run fails, or the step counter is full. -/
def run (d : Dialogue) : Dialogue × Option Outcome :=
  d.runFor (Session.capacity - d.session.steps)

end Dialogue

end Mailbox
