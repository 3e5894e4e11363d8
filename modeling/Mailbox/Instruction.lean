import Mailbox.Image
import Mailbox.Text.Column
set_option autoImplicit false

/-!
# Instructions

What a word means when it is executed: the hundreds select the operation, the last two digits
an address.  Words below 100 all halt.  Words outside `0 … 999`, and those of the four hundreds
and of the nine hundreds without an operation, are no instructions.

Normative source: SPEC_FULL.md, sections 3 (Instruction), 4.3 and A7.
-/

namespace Mailbox

/-- One operation of the computer, with its address if it has one. -/
inductive Instruction where
  | halt
  | add (a : Address)
  | sub (a : Address)
  | store (a : Address)
  | load (a : Address)
  | branch (a : Address)
  | branchZero (a : Address)
  | branchPositive (a : Address)
  | input
  | output
  | inputChar
  | outputChar
  deriving DecidableEq, Repr, Inhabited

namespace Instruction

/-- The instruction of an operation digit and the two digits after it. -/
def ofDigits? (operation : Nat) (a : Address) : Option Instruction :=
  match operation with
  | 0 => some .halt
  | 1 => some (.add a)
  | 2 => some (.sub a)
  | 3 => some (.store a)
  | 5 => some (.load a)
  | 6 => some (.branch a)
  | 7 => some (.branchZero a)
  | 8 => some (.branchPositive a)
  | 9 =>
    match a.val with
    | 1 => some .input
    | 2 => some .output
    | 3 => some .inputChar
    | 4 => some .outputChar
    | _ => none
  | _ => none

/-- The instruction a word stands for. -/
def decode? (w : Word) : Option Instruction :=
  if 0 ≤ w.val ∧ w.val ≤ 999 then
    ofDigits? (w.val.toNat / 100) ⟨w.val.toNat % 100, Nat.mod_lt _ (by decide)⟩
  else none

/-- The address an instruction works on. -/
def address? : Instruction → Option Address
  | .add a | .sub a | .store a | .load a | .branch a | .branchZero a | .branchPositive a => some a
  | .halt | .input | .output | .inputChar | .outputChar => none

/-- The name of the operation. -/
def name : Instruction → String
  | .halt => "HLT"
  | .add _ => "ADD"
  | .sub _ => "SUB"
  | .store _ => "STO"
  | .load _ => "LDA"
  | .branch _ => "BR"
  | .branchZero _ => "BRZ"
  | .branchPositive _ => "BRP"
  | .input => "IN"
  | .output => "OUT"
  | .inputChar => "INA"
  | .outputChar => "OTA"

/-- The assembly text of an instruction; its address has two digits. -/
def text (i : Instruction) : String :=
  match i.address? with
  | some a => i.name ++ " " ++ Text.zeroPad 2 a.val
  | none => i.name

end Instruction

end Mailbox
