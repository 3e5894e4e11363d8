import Mailbox.Assembly.Encoding
import Mailbox.Instruction
import Mailbox.Proofs.Assembly.Layout
set_option autoImplicit false

/-!
# What words mean

The word of a statement is read back by a decoder that knows nothing of assembly text.  Main
statement: a statement of a program whose labels are all carried either has a word that means what
the statement says, or its operand is at fault.

Normative source: SPEC_FULL.md, sections 4.2 and 4.3.
-/

namespace Mailbox

/-! ## Meaning -/

/-- The one mnemonic that stands for all names of an operation. -/
def Mnemonic.canonical : Mnemonic → Mnemonic
  | .sta => .sto
  | .bra => .br
  | .ext => .hlt
  | m => m

/-- The number an operand stands for: a literal for itself, a label for the number of the statement
that carries it. -/
inductive Operand.Denotes (ss : List Statement) : Operand → Int → Prop where
  | literal (value : Word) (span : Span) : Denotes ss (.literal value span) value.val
  | label {label : Label} {n : Nat} (hd : Statement.Defines ss n label.name) :
      Denotes ss (.label label) n

theorem Operand.Denotes.eq_of_literal {ss : List Statement} {value : Word} {span : Span} {n : Int}
    (h : Denotes ss (.literal value span) n) : n = value.val := by
  cases h
  rfl

/-- A word means what a statement says.  Data is its operand as it stands, or zero; any other word
decodes to the operation, with the operand for its address if the operation has one. -/
inductive Statement.Means (ss : List Statement) (s : Statement) (w : Word) : Prop where
  | blank (hm : s.mnemonic = .dat) (ho : s.operand = none) (hw : w = 0)
  | data {o : Operand} (hm : s.mnemonic = .dat) (ho : s.operand = some o)
      (hw : o.Denotes ss w.val)
  | plain {i : Instruction} (ha : s.mnemonic.arity = .forbidden) (ho : s.operand = none)
      (hi : Instruction.decode? w = some i) (hname : i.name = s.mnemonic.canonical.name)
      (haddress : i.address? = none)
  | addressed {i : Instruction} {o : Operand} {a : Address} (ha : s.mnemonic.arity = .required)
      (ho : s.operand = some o) (hi : Instruction.decode? w = some i)
      (hname : i.name = s.mnemonic.canonical.name) (haddress : i.address? = some a)
      (hv : o.Denotes ss a.val)

/-! ## Base words -/

theorem Instruction.decode?_of_val {w : Word} {k : Nat} {a : Address} (hk : k ≤ 9)
    (hw : w.val = 100 * k + a.val) : decode? w = ofDigits? k a := by
  have ha := a.isLt
  unfold decode?
  rw [if_pos (by omega)]
  congr 1
  · omega
  · exact Fin.ext (by simp only; omega)

namespace Mnemonic

theorem arity_eq_optional_iff (m : Mnemonic) : m.arity = .optional ↔ m = .dat := by
  cases m <;> simp [arity]

/-- The base word of an operation with an address has its digit in the hundreds. -/
theorem exists_digit {m : Mnemonic} (h : m.arity = .required) :
    ∃ (k : Nat) (base : Word), k ≤ 8 ∧ m.base? = some base ∧ base.val = 100 * k ∧
      ∀ a, ∃ i, Instruction.ofDigits? k a = some i ∧ i.name = m.canonical.name ∧
        i.address? = some a := by
  cases m with
  | add => exact ⟨1, 100, by decide, rfl, by decide, fun a => ⟨.add a, rfl, rfl, rfl⟩⟩
  | sub => exact ⟨2, 200, by decide, rfl, by decide, fun a => ⟨.sub a, rfl, rfl, rfl⟩⟩
  | sto => exact ⟨3, 300, by decide, rfl, by decide, fun a => ⟨.store a, rfl, rfl, rfl⟩⟩
  | sta => exact ⟨3, 300, by decide, rfl, by decide, fun a => ⟨.store a, rfl, rfl, rfl⟩⟩
  | lda => exact ⟨5, 500, by decide, rfl, by decide, fun a => ⟨.load a, rfl, rfl, rfl⟩⟩
  | br => exact ⟨6, 600, by decide, rfl, by decide, fun a => ⟨.branch a, rfl, rfl, rfl⟩⟩
  | bra => exact ⟨6, 600, by decide, rfl, by decide, fun a => ⟨.branch a, rfl, rfl, rfl⟩⟩
  | brz => exact ⟨7, 700, by decide, rfl, by decide, fun a => ⟨.branchZero a, rfl, rfl, rfl⟩⟩
  | brp => exact ⟨8, 800, by decide, rfl, by decide, fun a => ⟨.branchPositive a, rfl, rfl, rfl⟩⟩
  | inp | out | ina | ota | hlt | ext | dat => exact absurd h (by decide)

/-- The base word of an operation without an address is its word. -/
theorem exists_plain {m : Mnemonic} (h : m.arity = .forbidden) :
    ∃ base i, m.base? = some base ∧ Instruction.decode? base = some i ∧
      i.name = m.canonical.name ∧ i.address? = none := by
  cases m with
  | inp => exact ⟨901, .input, rfl, by decide, rfl, rfl⟩
  | out => exact ⟨902, .output, rfl, by decide, rfl, rfl⟩
  | ina => exact ⟨903, .inputChar, rfl, by decide, rfl, rfl⟩
  | ota => exact ⟨904, .outputChar, rfl, by decide, rfl, rfl⟩
  | hlt => exact ⟨0, .halt, rfl, by decide, rfl, rfl⟩
  | ext => exact ⟨0, .halt, rfl, by decide, rfl, rfl⟩
  | add | sub | sto | sta | lda | br | bra | brz | brp | dat => exact absurd h (by decide)

end Mnemonic

namespace Statement

open Faults

variable {ss : List Statement} {table : SymbolTable} {s : Statement}

/-! ## Operands -/

theorem Defines.val_ofBits {n : Nat} {name : String} (h : Defines ss n name)
    (hlen : ss.length ≤ 100) : (Word.ofBits n).val = n := by
  have hlt := h.lt
  simp only [Word.ofBits]
  omega

/-- The operand of a statement whose label is carried stands for its value. -/
theorem operandValue_eq {o : Operand} (hfits : table.Fits ss) (hlen : ss.length ≤ 100)
    (hd : ∀ e, ¬ Dangling ss s e) (ho : s.operand = some o) :
    ∃ v, s.operandValue table = .ok (some v) ∧ o.Denotes ss v.val := by
  cases o with
  | literal value span => exact ⟨value, by simp only [operandValue, ho], .literal value span⟩
  | label label =>
    obtain ⟨n, hn⟩ : ∃ n, Defines ss n label.name := by
      refine Classical.byContradiction fun hnone => ?_
      exact hd _ (.undefined ho fun m hm => hnone ⟨m, hm⟩)
    have haddress := (hfits.address?_iff label.name n).2 hn
    refine ⟨Word.ofBits n, by simp only [operandValue, ho, haddress], ?_⟩
    rw [hn.val_ofBits hlen]
    exact .label hn

/-- Only a literal is out of range. -/
theorem exists_literal_of_outOfRange {o : Operand} {n : Int} (hlen : ss.length ≤ 100)
    (hdenotes : o.Denotes ss n) (hn : ¬ (0 ≤ n ∧ n < 100)) :
    ∃ value span, o = .literal value span ∧ n = value.val := by
  cases hdenotes with
  | literal value span => exact ⟨value, span, rfl, rfl⟩
  | label hd =>
    have hlt := hd.lt
    omega

/-! ## Words -/

/-- What encoding a statement may come to: a word that means what the statement says, if nothing is
wrong with its operand, or else the error of its operand. -/
inductive Encodes (ss : List Statement) (s : Statement) : Except AssemblyError Word → Prop where
  | ok {w : Word} (hm : Means ss s w) (hsound : ∀ e, ¬ Unencodable s e) : Encodes ss s (.ok w)
  | error {e : AssemblyError} (h : Unencodable s e) : Encodes ss s (.error e)

/-- An operation with an address has a word if it has an operand in range. -/
theorem encodes_of_required (hfits : table.Fits ss) (hlen : ss.length ≤ 100)
    (hd : ∀ e, ¬ Dangling ss s e) (ha : s.mnemonic.arity = .required) :
    Encodes ss s (s.encode table) := by
  obtain ⟨k, base, hk, hbase, hval, hdigit⟩ := Mnemonic.exists_digit ha
  cases ho : s.operand with
  | none =>
    have hencode : s.encode table =
        .error ⟨s.line, s.mnemonicSpan, .operandRequired s.mnemonic⟩ := by
      simp [encode, operandValue, arityError?, ha, ho, bind, Except.bind]
    rw [hencode]
    exact .error (.required ha ho)
  | some o =>
    obtain ⟨v, hv, hdenotes⟩ := operandValue_eq hfits hlen hd ho
    have harity : s.arityError? = none := by simp [arityError?, ha, ho]
    by_cases hrange : 0 ≤ v.val ∧ v.val < 100
    · have hencode : s.encode table = .ok (base + v) := by
        simp [encode, hv, harity, hbase, hrange, bind, Except.bind]
      rw [hencode]
      let a : Address := ⟨v.val.toNat, by omega⟩
      have hav : (a.val : Int) = v.val := by simp only [a]; omega
      have hw : (base + v).val = 100 * k + a.val := by
        rw [Word.val_add, Word.val_clamp_of_fits (by omega) (by omega)]
        omega
      obtain ⟨i, hi, hname, haddress⟩ := hdigit a
      have hdecode := Instruction.decode?_of_val (by omega) hw
      apply Encodes.ok
      · exact .addressed ha ho (hdecode.trans hi) hname haddress (hav ▸ hdenotes)
      · intro e he
        cases he with
        | required _ ho' => exact absurd (ho.symm.trans ho') (by simp)
        | forbidden ha' _ => exact absurd (ha.symm.trans ha') (by simp)
        | outOfRange _ ho' hv' =>
          obtain rfl := Option.some.inj (ho.symm.trans ho')
          have hvalue := hdenotes.eq_of_literal
          omega
    · obtain ⟨value, span, rfl, hvalue⟩ := exists_literal_of_outOfRange hlen hdenotes hrange
      obtain rfl := Word.ext hvalue
      have hencode : s.encode table = .error ⟨s.line, span, .operandOutOfRange v⟩ := by
        simp [encode, hv, harity, hbase, hrange, ho, bind, Except.bind, Operand.span]
      rw [hencode]
      exact .error (.outOfRange ha ho (by omega))

/-- An operation without an address has a word if it has no operand. -/
theorem encodes_of_forbidden (hfits : table.Fits ss) (hlen : ss.length ≤ 100)
    (hd : ∀ e, ¬ Dangling ss s e) (ha : s.mnemonic.arity = .forbidden) :
    Encodes ss s (s.encode table) := by
  obtain ⟨base, i, hbase, hi, hname, haddress⟩ := Mnemonic.exists_plain ha
  cases ho : s.operand with
  | none =>
    have hencode : s.encode table = .ok base := by
      simp [encode, operandValue, arityError?, ha, ho, hbase, bind, Except.bind]
    rw [hencode]
    apply Encodes.ok (.plain ha ho hi hname haddress)
    intro e he
    cases he with
    | required ha' _ => exact absurd (ha.symm.trans ha') (by simp)
    | forbidden _ ho' => exact absurd (ho.symm.trans ho') (by simp)
    | outOfRange ha' _ _ => exact absurd (ha.symm.trans ha') (by simp)
  | some o =>
    obtain ⟨v, hv, _⟩ := operandValue_eq hfits hlen hd ho
    have hencode : s.encode table =
        .error ⟨s.line, o.span, .operandForbidden s.mnemonic⟩ := by
      simp [encode, hv, arityError?, ha, ho, bind, Except.bind]
    rw [hencode]
    exact .error (.forbidden ha ho)

/-- Data has a word in any case. -/
theorem encodes_of_dat (hfits : table.Fits ss) (hlen : ss.length ≤ 100)
    (hd : ∀ e, ¬ Dangling ss s e) (hm : s.mnemonic = .dat) :
    Encodes ss s (s.encode table) := by
  have harity : s.mnemonic.arity = .optional := by rw [hm]; rfl
  have hbase : s.mnemonic.base? = none := by rw [hm]; rfl
  have hsound : ∀ e, ¬ Unencodable s e := by
    intro e he
    cases he with
    | required ha _ => exact absurd (harity.symm.trans ha) (by simp)
    | forbidden ha _ => exact absurd (harity.symm.trans ha) (by simp)
    | outOfRange ha _ _ => exact absurd (harity.symm.trans ha) (by simp)
  cases ho : s.operand with
  | none =>
    have hencode : s.encode table = .ok 0 := by
      simp [encode, operandValue, arityError?, harity, ho, hbase, bind, Except.bind]
    rw [hencode]
    exact .ok (.blank hm ho rfl) hsound
  | some o =>
    obtain ⟨v, hv, hdenotes⟩ := operandValue_eq hfits hlen hd ho
    have hencode : s.encode table = .ok v := by
      simp [encode, hv, arityError?, harity, hbase, bind, Except.bind]
    rw [hencode]
    exact .ok (.data hm ho hdenotes) hsound

/-- What encoding a statement of a program with all its labels comes to. -/
theorem encodes_encode (hfits : table.Fits ss) (hlen : ss.length ≤ 100)
    (hd : ∀ e, ¬ Dangling ss s e) : Encodes ss s (s.encode table) := by
  cases ha : s.mnemonic.arity with
  | required => exact encodes_of_required hfits hlen hd ha
  | forbidden => exact encodes_of_forbidden hfits hlen hd ha
  | optional => exact encodes_of_dat hfits hlen hd ((Mnemonic.arity_eq_optional_iff _).1 ha)

end Statement

end Mailbox
