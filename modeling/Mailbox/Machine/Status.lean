set_option autoImplicit false

/-!
# Machine statuses

What a machine reports after a step, and the numbers that stand for statuses in a host that
knows numbers only.

Normative source: SPEC_FULL.md, sections 4.4, 9 and A6.4.
-/

namespace Mailbox

/-- What the last step of a machine came to. -/
inductive Status where
  | running
  | awaitingNumber
  | awaitingChar
  | producedNumber
  | producedChar
  | halted
  | endOfMemory
  | invalidInstruction
  deriving DecidableEq, Repr, Inhabited

namespace Status

/-- The name of a status. -/
def name : Status → String
  | .running => "Running"
  | .awaitingNumber => "AwaitingNumberInput"
  | .awaitingChar => "AwaitingCharInput"
  | .producedNumber => "ProducedNumber"
  | .producedChar => "ProducedChar"
  | .halted => "Halted"
  | .endOfMemory => "EndOfMemory"
  | .invalidInstruction => "InvalidInstruction"

/-- The program is over: no step changes the machine any more. -/
def isTerminal : Status → Bool
  | .halted | .endOfMemory | .invalidInstruction => true
  | .running | .awaitingNumber | .awaitingChar | .producedNumber | .producedChar => false

/-- The program is over because it went wrong. -/
def isFault : Status → Bool
  | .endOfMemory | .invalidInstruction => true
  | .halted => false
  | .running | .awaitingNumber | .awaitingChar | .producedNumber | .producedChar => false

/-- The machine waits for a value. -/
def isAwaiting : Status → Bool
  | .awaitingNumber | .awaitingChar => true
  | .running | .producedNumber | .producedChar => false
  | .halted | .endOfMemory | .invalidInstruction => false

/-- What went wrong, for a fault. -/
def faultText? : Status → Option String
  | .endOfMemory => some "Reached end of memory"
  | .invalidInstruction => some "Reached an invalid instruction"
  | .halted => none
  | .running | .awaitingNumber | .awaitingChar | .producedNumber | .producedChar => none

/-- The number that stands for a status. -/
def code : Status → Nat
  | .running => 0
  | .awaitingNumber => 1
  | .producedNumber => 2
  | .halted => 3
  | .endOfMemory => 4
  | .invalidInstruction => 5
  | .awaitingChar => 11
  | .producedChar => 12

/-- The status a number stands for. -/
def ofCode? : Nat → Option Status
  | 0 => some .running
  | 1 => some .awaitingNumber
  | 2 => some .producedNumber
  | 3 => some .halted
  | 4 => some .endOfMemory
  | 5 => some .invalidInstruction
  | 11 => some .awaitingChar
  | 12 => some .producedChar
  | _ => none

@[simp] theorem ofCode?_code (s : Status) : ofCode? s.code = some s := by
  cases s <;> rfl

theorem isAwaiting_of_isTerminal {s : Status} (h : s.isTerminal) : s.isAwaiting = false := by
  cases s <;> first | rfl | cases h

end Status

end Mailbox
