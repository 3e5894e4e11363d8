import Mailbox.Machine.Basic
import Mailbox.Text.Column
set_option autoImplicit false

/-!
# Traces

A record of each step of a machine: where it was, what it executed, and what came of it.

Normative source: SPEC_FULL.md, section A3.
-/

namespace Mailbox

/-- The record of a step: the program counter and the word under it before the step, the
accumulator and the status after it. -/
structure TraceEntry where
  pc : Nat
  word : Option Word
  acc : Word
  status : Status
  deriving DecidableEq, Repr, Inhabited

namespace TraceEntry

/-- The record of the next step of a machine. -/
def ofStep (m : Machine) : TraceEntry :=
  ⟨m.pc, m.fetch?, m.step.acc, m.step.status⟩

/-- The word before the step, with at least three places, or dashes where there is none. -/
def wordText (e : TraceEntry) : String :=
  match e.word with
  | some w => Text.zeroPad 3 w.val
  | none => "---"

/-- The text of the instruction, or question marks where there is none. -/
def instructionText (e : TraceEntry) : String :=
  match e.word.bind Instruction.decode? with
  | some i => i.text
  | none => "???"

/-- The record as one line. -/
def line (e : TraceEntry) : String :=
  let pc := Text.zeroPad 2 e.pc
  let acc := e.acc.decimal
  s!"[pc={pc} acc={acc}] {e.wordText} {e.instructionText} -> status {e.status.code}"

end TraceEntry

end Mailbox
