import Mailbox.Word
set_option autoImplicit false

/-!
# Mnemonics

The names that stand for operations in assembly text.  Some operations have two names.

Normative source: SPEC_FULL.md, section 4.3, and A6.1 for operands of data.
-/

namespace Mailbox

/-- Whether a statement has an operand. -/
inductive Arity where
  | required
  | optional
  | forbidden
  deriving DecidableEq, Repr

/-- A name of an operation, or of plain data. -/
inductive Mnemonic where
  | add
  | sub
  | sto
  | sta
  | lda
  | br
  | bra
  | brz
  | brp
  | inp
  | out
  | ina
  | ota
  | hlt
  | ext
  | dat
  deriving DecidableEq, Repr, Inhabited

namespace Mnemonic

/-- All mnemonics. -/
def all : List Mnemonic :=
  [.add, .sub, .sto, .sta, .lda, .br, .bra, .brz, .brp, .inp, .out, .ina, .ota, .hlt, .ext, .dat]

/-- The name in capitals. -/
def name : Mnemonic → String
  | .add => "ADD"
  | .sub => "SUB"
  | .sto => "STO"
  | .sta => "STA"
  | .lda => "LDA"
  | .br => "BR"
  | .bra => "BRA"
  | .brz => "BRZ"
  | .brp => "BRP"
  | .inp => "IN"
  | .out => "OUT"
  | .ina => "INA"
  | .ota => "OTA"
  | .hlt => "HLT"
  | .ext => "EXT"
  | .dat => "DAT"

/-- The mnemonic with a given name, in letters of any case. -/
def ofName? (s : String) : Option Mnemonic :=
  let capitals := s.toList.map Char.toUpper
  all.find? fun m => m.name.toList = capitals

/-- Whether statements with this mnemonic have an operand. -/
def arity : Mnemonic → Arity
  | .add | .sub | .sto | .sta | .lda | .br | .bra | .brz | .brp => .required
  | .dat => .optional
  | .inp | .out | .ina | .ota | .hlt | .ext => .forbidden

/-- The word of the operation at address zero.  Data has none: its operand is the word. -/
def base? : Mnemonic → Option Word
  | .hlt | .ext => some 0
  | .add => some 100
  | .sub => some 200
  | .sto | .sta => some 300
  | .lda => some 500
  | .br | .bra => some 600
  | .brz => some 700
  | .brp => some 800
  | .inp => some 901
  | .out => some 902
  | .ina => some 903
  | .ota => some 904
  | .dat => none

theorem mem_all (m : Mnemonic) : m ∈ all := by
  cases m <;> decide

@[simp] theorem ofName?_name (m : Mnemonic) : ofName? m.name = some m := by
  cases m <;> decide +kernel

end Mnemonic

end Mailbox
