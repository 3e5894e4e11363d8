import Mailbox.Proofs.Machine.Ignored
import Mailbox.Proofs.Machine.Writes
set_option autoImplicit false

/-!
# Hosts that know numbers only

A host that cannot be told that there is no number reads a code of the status and an output code
after each step.  One word is set apart as the output code of a machine that has no number to put
out, but that word is a number like any other.  Main statement: a host that passes over this word
gets the numbers that the program puts out, in order, except for those that are this word; so it
gets all of them if and only if none is.  A host that goes by the code of the status gets all.

Normative source: SPEC_FULL.md, sections 9 and A6.4 (the output sentinel).
-/

namespace Mailbox

/-- What a host that knows numbers only is told after a step. -/
structure Reading where
  code : Nat
  output : Word
  deriving DecidableEq, Repr

namespace Reading

/-- The output codes that are kept by a host that passes over the one set apart. -/
def kept (readings : List Reading) : List Word :=
  (readings.map output).filter (· ≠ Machine.noOutput)

/-- The output codes that are kept by a host that goes by the code of the status. -/
def announced (readings : List Reading) : List Word :=
  (readings.filter (·.code = Status.producedNumber.code)).map output

end Reading

/-- What a host that knows numbers only reads of a machine that has made a step. -/
def Machine.reading (m : Machine) : Reading :=
  ⟨m.status.code, m.outputCode⟩

namespace Exchange

/-- The number that the operation puts out: the accumulator, if it is a step that executes an
output. -/
def number? (x : Exchange) : Option Word :=
  if x.operation = .step ∧ x.before.current? = some .output then some x.before.acc else none

/-- What the host reads after the operation, if it is a step. -/
def reading? (x : Exchange) : Option Reading :=
  if x.operation = .step then some x.before.step.reading else none

end Exchange

namespace Machine

/-- The numbers that a sequence of operations puts out, in order. -/
def numbers (m : Machine) (ops : List Operation) : List Word :=
  (m.exchanges ops).filterMap Exchange.number?

/-- What a host that knows numbers only reads in a sequence of operations, in order. -/
def readings (m : Machine) (ops : List Operation) : List Reading :=
  (m.exchanges ops).filterMap Exchange.reading?

variable {m : Machine} {ops : List Operation}

/-! ## One machine -/

theorem outputCode_of_none (h : m.outputNumber? = none) : m.outputCode = noOutput := by
  rw [outputCode, h, Option.getD_none]

theorem outputCode_of_some {value : Word} (h : m.outputNumber? = some value) :
    m.outputCode = value := by
  rw [outputCode, h, Option.getD_some]

/-- The word set apart tells whether there is a number, unless it is the number. -/
theorem outputCode_tells_iff :
    (m.outputCode = noOutput ↔ m.outputNumber? = none) ↔ m.outputNumber? ≠ some noOutput := by
  cases h : m.outputNumber? with
  | none => simp [outputCode_of_none h]
  | some value => simp [outputCode_of_some h]

theorem isSome_outputNumber?_iff : m.outputNumber?.isSome ↔ m.status = .producedNumber := by
  unfold outputNumber?
  split <;> simp_all

theorem code_eq_producedNumber_iff {status : Status} :
    status.code = Status.producedNumber.code ↔ status = .producedNumber := by
  constructor
  · intro h
    have hback := congrArg Status.ofCode? h
    rwa [Status.ofCode?_code, Status.ofCode?_code, Option.some.injEq] at hback
  · rintro rfl
    rfl

/-! ## One step -/

/-- After a step there is a number exactly if the step has executed an output. -/
theorem outputNumber?_step (m : Machine) :
    m.step.outputNumber? = if m.current? = some .output then some m.acc else none := by
  cases hi : m.current? with
  | none =>
    obtain ⟨hidle, _⟩ := step_of_current?_eq_none hi
    have hstatus : m.step.status ≠ .producedNumber := by
      intro h
      rw [isReady, h] at hidle
      cases hidle
    rw [outputNumber?, if_neg hstatus, if_neg (by simp)]
  | some i =>
    rw [step_of_current? hi]
    cases i <;> rfl

/-! ## Sequences of operations -/

theorem readings_cons_of_ne_step {op : Operation} (h : op ≠ .step) :
    m.readings (op :: ops) = (m.perform op).1.readings ops := by
  have hnone : Exchange.reading? ⟨m, op, (m.perform op).2⟩ = none := if_neg h
  rw [readings, exchanges, List.filterMap_cons_none hnone]
  rfl

theorem readings_cons_step :
    m.readings (.step :: ops) = m.step.reading :: m.step.readings ops := by
  have hsome : Exchange.reading? ⟨m, .step, (m.perform .step).2⟩ = some m.step.reading := if_pos rfl
  rw [readings, exchanges, List.filterMap_cons_some hsome]
  rfl

theorem numbers_cons_of_ne_step {op : Operation} (h : op ≠ .step) :
    m.numbers (op :: ops) = (m.perform op).1.numbers ops := by
  have hnone : Exchange.number? ⟨m, op, (m.perform op).2⟩ = none := if_neg fun hboth => h hboth.1
  rw [numbers, exchanges, List.filterMap_cons_none hnone]
  rfl

/-- A step puts out the number that is there to be read after it. -/
theorem numbers_cons_step :
    m.numbers (.step :: ops) = m.step.outputNumber?.toList ++ m.step.numbers ops := by
  have hnumber : Exchange.number? ⟨m, .step, (m.perform .step).2⟩ = m.step.outputNumber? := by
    rw [outputNumber?_step, Exchange.number?]
    simp only [true_and]
  rw [numbers, exchanges, List.filterMap_cons, hnumber]
  cases m.step.outputNumber? <;> rfl

theorem kept_cons (r : Reading) (readings : List Reading) :
    Reading.kept (r :: readings) =
      if r.output = noOutput then Reading.kept readings
      else r.output :: Reading.kept readings := by
  rw [Reading.kept, List.map_cons, List.filter_cons]
  split <;> simp_all [Reading.kept]

theorem announced_cons (r : Reading) (readings : List Reading) :
    Reading.announced (r :: readings) =
      if r.code = Status.producedNumber.code then r.output :: Reading.announced readings
      else Reading.announced readings := by
  rw [Reading.announced, List.filter_cons]
  split <;> simp_all [Reading.announced]

/-- A host that passes over the word set apart loses the numbers that are this word, and no
others. -/
theorem kept_readings (m : Machine) (ops : List Operation) :
    Reading.kept (m.readings ops) = (m.numbers ops).filter (· ≠ noOutput) := by
  induction ops generalizing m with
  | nil => rfl
  | cons op ops ih =>
    by_cases hop : op = .step
    · subst hop
      rw [readings_cons_step, numbers_cons_step, kept_cons, ih, List.filter_append]
      cases hn : m.step.outputNumber? with
      | none => rw [reading, outputCode_of_none hn, if_pos rfl]; rfl
      | some value =>
        rw [reading, outputCode_of_some hn]
        by_cases hvalue : value = noOutput <;> simp [hvalue]
    · rw [readings_cons_of_ne_step hop, numbers_cons_of_ne_step hop, ih]

/-- A host that goes by the code of the status loses nothing. -/
theorem announced_readings (m : Machine) (ops : List Operation) :
    Reading.announced (m.readings ops) = m.numbers ops := by
  induction ops generalizing m with
  | nil => rfl
  | cons op ops ih =>
    by_cases hop : op = .step
    · subst hop
      have hcode : m.step.reading.code = Status.producedNumber.code ↔
          m.step.outputNumber?.isSome :=
        code_eq_producedNumber_iff.trans isSome_outputNumber?_iff.symm
      rw [readings_cons_step, numbers_cons_step, announced_cons, ih]
      cases hn : m.step.outputNumber? with
      | none => rw [if_neg (by simp [hcode, hn])]; rfl
      | some value => rw [if_pos (by simp [hcode, hn]), reading, outputCode_of_some hn]; rfl
    · rw [readings_cons_of_ne_step hop, numbers_cons_of_ne_step hop, ih]

/-- After any sequence of operations the output code is the word set apart exactly if there is no
number, unless the number is this word.  A host that reads the output code after each step and
passes over this word gets the numbers that the program puts out, in order, except for those that
are this word: it gets all of them if and only if none is.  A host that keeps the output codes for
which the code of the status tells of a number gets all in any case. -/
theorem polling_collects_numbers (image : Image) (ops : List Operation) :
    let m := (start image).performAll ops
    let readings := (start image).readings ops
    let numbers := (start image).numbers ops
    ((m.outputCode = noOutput ↔ m.outputNumber? = none) ↔ m.outputNumber? ≠ some noOutput) ∧
      Reading.kept readings = numbers.filter (· ≠ noOutput) ∧
      (Reading.kept readings = numbers ↔ noOutput ∉ numbers) ∧
      Reading.announced readings = numbers := by
  intro m readings numbers
  have hkept : Reading.kept readings = numbers.filter (· ≠ noOutput) := kept_readings _ ops
  refine ⟨outputCode_tells_iff, hkept, ?_, announced_readings _ ops⟩
  rw [hkept, List.filter_eq_self]
  constructor
  · intro hall hmem
    simpa using hall noOutput hmem
  · intro hnot value hvalue
    exact decide_eq_true fun heq => hnot (heq ▸ hvalue)

/-- A program that puts out the number 1000: the output code is the one of a machine without a
number, and the host that passes over it gets nothing. -/
theorem polling_misses_thousand :
    let image := Image.ofList [503, 902, 0, 1000]
    let ops := [Operation.step, .step]
    let m := (start image).performAll ops
    m.outputNumber? = some 1000 ∧ m.outputCode = noOutput ∧
      ¬ (m.outputCode = noOutput ↔ m.outputNumber? = none) ∧
      (start image).numbers ops = [1000] ∧ Reading.kept ((start image).readings ops) = [] := by
  decide +kernel

end Machine

end Mailbox
