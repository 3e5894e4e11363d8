import Mailbox.Session.Input
import Mailbox.Session.Trace
import Mailbox.Session.Transcript
set_option autoImplicit false

/-!
# Sessions

A session runs a machine until its program is over: it gives the machine the values it asks for
and writes down what it puts out.  It may have a limit on the number of steps, and it may keep a
trace.  A run that fails leaves the session as it was when it failed, and may be taken up again.

Normative source: SPEC_FULL.md, sections A4 (the limit) and A6.8.

Scope: whatever a session writes is taken in, so no run fails over its output.
-/

namespace Mailbox

/-- How a session is to run a program. -/
structure SessionOptions where
  minimal : Bool
  colored : Bool
  tracing : Bool
  limit : Option Nat
  deriving DecidableEq, Repr, Inhabited

/-- Why a run fails. -/
inductive SessionFault where
  | limitReached (limit pc : Nat)
  | input (cause : InputFault)
  | refused (cause : Machine.RefusedInput)
  deriving DecidableEq, Repr

/-- The fault in words. -/
def SessionFault.message : SessionFault → String
  | .limitReached limit pc => s!"Step limit of {limit} reached at address {pc}"
  | .input cause => cause.message
  | .refused cause => cause.message

/-- How a run ends: with a terminal status of the machine, or with a fault of the session. -/
inductive Outcome where
  | ended (status : Status)
  | failed (fault : SessionFault)
  deriving DecidableEq, Repr

/-- A machine with its surroundings. -/
structure Session where
  machine : Machine
  input : Input
  transcript : Transcript
  limit : Option Nat
  steps : Nat
  tracing : Bool
  trace : Array TraceEntry
  deriving DecidableEq, Repr, Inhabited

namespace Session

/-- The session that is about to start a program. -/
def start (image : Image) (input : Input) (options : SessionOptions) : Session where
  machine := Machine.start image
  input := input
  transcript := Transcript.blank options.minimal options.colored
  limit := options.limit
  steps := 0
  tracing := options.tracing
  trace := #[]

/-- The limit, if no further step may be made. -/
def exhaustedLimit? (s : Session) : Option Nat :=
  s.limit.filter fun limit => limit ≤ s.steps

/-- Makes a step of the machine. -/
def step (s : Session) : Session :=
  { s with
    machine := s.machine.step
    steps := s.steps + 1
    trace := if s.tracing then s.trace.push (.ofStep s.machine) else s.trace }

/-- Writes an item. -/
def write (s : Session) (item : Item) : Session :=
  { s with transcript := s.transcript.write item }

/-- Writes the banner of the machine's status, if it has one. -/
def announce (s : Session) : Session :=
  { s with transcript := s.transcript.writeStatus s.machine.status }

/-- The character with a code; codes without a character have the replacement character. -/
def charOfCode (code : Option UInt32) : Char :=
  match code with
  | some n => if h : n.isValidChar then ⟨n, h⟩ else '\uFFFD'
  | none => '\uFFFD'

/-- Gives the machine a number to go on with. -/
def supplyNumber (s : Session) : Session × Option Outcome :=
  let r := s.input.readNumber
  let s := { s with input := r.2 }
  match r.1 with
  | .error cause => (s, some (.failed (.input cause)))
  | .ok value =>
    match s.machine.inputNumber value with
    | .error cause => (s, some (.failed (.refused cause)))
    | .ok machine => ({ s with machine }.write (.echo value.decimal), none)

/-- Gives the machine a character to go on with. -/
def supplyChar (s : Session) : Session × Option Outcome :=
  let r := s.input.readChar
  let s := { s with input := r.2 }
  match r.1 with
  | .error cause => (s, some (.failed (.input cause)))
  | .ok c =>
    match s.machine.inputChar c.val with
    | .error cause => (s, some (.failed (.refused cause)))
    | .ok machine => ({ s with machine }.write (.echo (String.singleton c)), none)

/-- Does what the status after a step asks for. -/
def respond (s : Session) : Session × Option Outcome :=
  match s.machine.status with
  | .running => (s, none)
  | .producedNumber => (s.write (.number (s.machine.outputNumber?.getD 0)), none)
  | .producedChar => (s.write (.char (charOfCode s.machine.outputChar?)), none)
  | .awaitingNumber => s.announce.supplyNumber
  | .awaitingChar => s.announce.supplyChar
  | .halted => (s.announce, some (.ended .halted))
  | .endOfMemory => (s.announce, some (.ended .endOfMemory))
  | .invalidInstruction => (s.announce, some (.ended .invalidInstruction))

/-- One pass: a step and what it asks for, unless the limit is reached.  The outcome is there when
the run ends with this pass. -/
def pass (s : Session) : Session × Option Outcome :=
  match s.exhaustedLimit? with
  | some limit => (s, some (.failed (.limitReached limit s.machine.pc)))
  | none => s.step.respond

/-- Passes until the run ends, `count` passes at most. -/
def runFor (s : Session) : (count : Nat) → Session × Option Outcome
  | 0 => (s, none)
  | count + 1 =>
    match s.pass with
    | (next, some outcome) => (next, some outcome)
    | (next, none) => next.runFor count

/-- The number of steps that the step counter can count. -/
def capacity : Nat := 18446744073709551616

/-- Runs until the program is over or the run fails.  Without an outcome, the step counter is
full. -/
def run (s : Session) : Session × Option Outcome :=
  s.runFor (capacity - s.steps)

/-! ## Counting passes -/

@[simp] theorem runFor_zero (s : Session) : s.runFor 0 = (s, none) := rfl

theorem runFor_succ_of_none {s next : Session} (h : s.pass = (next, none)) (count : Nat) :
    s.runFor (count + 1) = next.runFor count := by
  simp [runFor, h]

theorem runFor_succ_of_some {s next : Session} {outcome : Outcome}
    (h : s.pass = (next, some outcome)) (count : Nat) :
    s.runFor (count + 1) = (next, some outcome) := by
  simp [runFor, h]

end Session

end Mailbox
