import Mailbox.Instruction
import Mailbox.Machine.Status
set_option autoImplicit false

/-!
# The machine

A machine holds the mailboxes, a program counter, an accumulator, the last value that went in or
out, and its status.  One step executes one instruction.  An input instruction stays at the
program counter until its value arrives.

Normative source: SPEC_FULL.md, sections 3 (MachineState), 4.4 and A7.  In section 3 the program
counter is the address of a mailbox; behind the last mailbox it is 100.
-/

namespace Mailbox

/-- The state of the computer between two steps.  The program counter may lie just behind the
last mailbox. -/
structure Machine where
  memory : Image
  pc : Nat
  acc : Word
  status : Status
  io : Word
  deriving DecidableEq, Repr, Inhabited

namespace Machine

/-- The machine that is about to execute its first instruction. -/
def start (image : Image) : Machine := ⟨image, 0, 0, .running, 0⟩

/-- The word at the program counter. -/
def fetch? (m : Machine) : Option Word :=
  m.memory.get? m.pc

/-- Whether the next step executes something: the program is not over and no value is awaited. -/
def isReady (m : Machine) : Bool :=
  !m.status.isTerminal && !m.status.isAwaiting

/-- Executes an instruction. -/
def execute (m : Machine) : Instruction → Machine
  | .halt => { m with status := .halted }
  | .input => { m with status := .awaitingNumber }
  | .inputChar => { m with status := .awaitingChar }
  | .add a => { m with status := .running, pc := m.pc + 1, acc := m.acc + m.memory.read a }
  | .sub a => { m with status := .running, pc := m.pc + 1, acc := m.acc - m.memory.read a }
  | .store a => { m with status := .running, pc := m.pc + 1, memory := m.memory.write a m.acc }
  | .load a => { m with status := .running, pc := m.pc + 1, acc := m.memory.read a }
  | .branch a => { m with status := .running, pc := a }
  | .branchZero a =>
    { m with status := .running, pc := if m.acc.val = 0 then a.val else m.pc + 1 }
  | .branchPositive a =>
    { m with status := .running, pc := if 0 ≤ m.acc.val then a.val else m.pc + 1 }
  | .output => { m with status := .producedNumber, pc := m.pc + 1, io := m.acc }
  | .outputChar => { m with status := .producedChar, pc := m.pc + 1, io := m.acc }

/-- One step.  A machine whose program is over or that awaits a value stays as it is. -/
def step (m : Machine) : Machine :=
  if m.isReady then
    match m.fetch? with
    | none => { m with status := .endOfMemory }
    | some w =>
      match Instruction.decode? w with
      | none => { m with status := .invalidInstruction }
      | some i => m.execute i
  else m

/-! ## Input -/

/-- Input came while the machine was not waiting for that kind of input. -/
structure RefusedInput where
  status : Status
  deriving DecidableEq, Repr

/-- The refusal in words. -/
def RefusedInput.message (e : RefusedInput) : String :=
  s!"Machine is not expecting this input (status: {e.status.name})"

/-- Completes the input instruction at the program counter. -/
def accept (m : Machine) (value : Word) : Machine :=
  { m with status := .running, pc := m.pc + 1, acc := value, io := value }

/-- Gives a number to a machine that waits for one. -/
def inputNumber (m : Machine) (value : Word) : Except RefusedInput Machine :=
  if m.status = .awaitingNumber then .ok (m.accept value) else .error ⟨m.status⟩

/-- Gives a character code to a machine that waits for one. -/
def inputChar (m : Machine) (code : UInt32) : Except RefusedInput Machine :=
  if m.status = .awaitingChar then .ok (m.accept (.ofCode code)) else .error ⟨m.status⟩

/-! ## Output -/

/-- The number that the last step put out. -/
def outputNumber? (m : Machine) : Option Word :=
  if m.status = .producedNumber then some m.io else none

/-- The character code that the last step put out, if its value is in the range of codes. -/
def outputChar? (m : Machine) : Option UInt32 :=
  if m.status = .producedChar then m.io.toCode? else none

/-- What a host that knows numbers only reads when there is no number to put out. -/
def noOutput : Word := 1000

/-- The number that the last step put out, for a host that knows numbers only. -/
def outputCode (m : Machine) : Word :=
  m.outputNumber?.getD noOutput

/-! ## Steps that change nothing -/

theorem isReady_iff {m : Machine} :
    m.isReady ↔ m.status.isTerminal = false ∧ m.status.isAwaiting = false := by
  simp [isReady]

theorem step_of_not_isReady {m : Machine} (h : m.isReady = false) : m.step = m := by
  simp [step, h]

theorem step_of_isTerminal {m : Machine} (h : m.status.isTerminal) : m.step = m :=
  step_of_not_isReady (by simp [isReady, h])

theorem step_of_isAwaiting {m : Machine} (h : m.status.isAwaiting) : m.step = m :=
  step_of_not_isReady (by simp [isReady, h])

end Machine

end Mailbox
