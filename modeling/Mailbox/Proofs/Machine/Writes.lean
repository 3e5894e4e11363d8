import Mailbox.Proofs.Machine.Step
set_option autoImplicit false

/-!
# What operations write

An operation writes one thing at most: a store writes the accumulator into a mailbox, and an output
or an accepted value writes the value that went out or in.  Main statement: after any sequence of
operations each mailbox holds the last word that was written into it, and the machine shows the last
value that was written as going out or in; what an operation leaves alone is as it was.

Normative source: SPEC_FULL.md, sections 4.4 and 5 (effects in program order).
-/

namespace Mailbox

/-- Something that an operation writes. -/
inductive Write where
  /-- A word into a mailbox. -/
  | mailbox (a : Address) (w : Word)
  /-- A value that goes in or out. -/
  | passing (w : Word)
  deriving DecidableEq, Repr

namespace Write

/-- The word that goes into a mailbox. -/
def into? (a : Address) : Write → Option Word
  | .mailbox b w => if a = b then some w else none
  | .passing _ => none

/-- The value that goes in or out. -/
def passing? : Write → Option Word
  | .mailbox _ _ => none
  | .passing w => some w

/-- The words that go into a mailbox, in order. -/
def allInto (a : Address) (writes : List Write) : List Word :=
  writes.filterMap (into? a)

/-- The values that go in or out, in order. -/
def allPassing (writes : List Write) : List Word :=
  writes.filterMap passing?

end Write

/-- An instruction sends the program counter to its address, for the accumulator there is. -/
inductive Instruction.JumpsTo (acc : Word) : Instruction → Address → Prop
  | branch (a : Address) : JumpsTo acc (.branch a) a
  | branchZero {a : Address} : acc.val = 0 → JumpsTo acc (.branchZero a) a
  | branchPositive {a : Address} : 0 ≤ acc.val → JumpsTo acc (.branchPositive a) a

namespace Machine

/-- The instruction that the next step executes, if it executes one. -/
def current? (m : Machine) : Option Instruction :=
  if m.isReady then m.fetch?.bind Instruction.decode? else none

/-- The write of an instruction. -/
def writeOf? (m : Machine) : Instruction → Option Write
  | .store a => some (.mailbox a m.acc)
  | .output | .outputChar => some (.passing m.acc)
  | .halt | .input | .inputChar => none
  | .add _ | .sub _ | .load _ => none
  | .branch _ | .branchZero _ | .branchPositive _ => none

/-- The write of an operation.  Refused input writes nothing. -/
def write? (m : Machine) : Operation → Option Write
  | .step => m.current?.bind m.writeOf?
  | .number value => if m.status = .awaitingNumber then some (.passing value) else none
  | .char code => if m.status = .awaitingChar then some (.passing (.ofCode code)) else none

/-- The writes of operations, in order. -/
def writes (m : Machine) : List Operation → List Write
  | [] => []
  | op :: ops => (m.write? op).toList ++ (m.perform op).1.writes ops

/-! ## Steps -/

theorem current?_of_decode? {m : Machine} {a : Address} {i : Instruction} (hready : m.isReady)
    (hpc : m.pc = a.val) (hi : Instruction.decode? (m.memory.read a) = some i) :
    m.current? = some i := by
  rw [current?, if_pos hready, fetch?, hpc, Image.get?_val, Option.bind_some, hi]

theorem step_of_current? {m : Machine} {i : Instruction} (h : m.current? = some i) :
    m.step = m.execute i := by
  unfold current? at h
  split at h
  · rename_i hr
    obtain ⟨w, hw, hi⟩ := Option.bind_eq_some_iff.1 h
    simp only [step, hr, if_true, hw, hi]
  · exact absurd h (by simp)

/-- A step without an instruction changes the status at most, and the program ends or waits. -/
theorem step_of_current?_eq_none {m : Machine} (h : m.current? = none) :
    m.step.isReady = false ∧ m.step = { m with status := m.step.status } := by
  unfold current? at h
  split at h
  · rename_i hr
    cases hw : m.fetch? with
    | none =>
      have hs : m.step = { m with status := .endOfMemory } := by
        simp only [step, hr, if_true, hw]
      rw [hs]
      exact ⟨rfl, rfl⟩
    | some w =>
      rw [hw, Option.bind_some] at h
      have hs : m.step = { m with status := .invalidInstruction } := by
        simp only [step, hr, if_true, hw, h]
      rw [hs]
      exact ⟨rfl, rfl⟩
  · rename_i hr
    have hr : m.isReady = false := by simpa using hr
    rw [step_of_not_isReady hr]
    exact ⟨hr, rfl⟩

/-! ## What an instruction writes -/

variable (m : Machine) (i : Instruction)

theorem read_execute (a : Address) :
    (m.execute i).memory.read a =
      ((m.writeOf? i).bind (Write.into? a)).getD (m.memory.read a) := by
  cases i with
  | store b =>
    simp only [execute, writeOf?, Option.bind_some, Write.into?, Image.read_write]
    split <;> rfl
  | _ => rfl

theorem io_execute :
    (m.execute i).io = ((m.writeOf? i).bind Write.passing?).getD m.io := by
  cases i <;> rfl

/-- An instruction that ends the program or waits changes nothing but the status. -/
theorem execute_of_not_isReady (h : (m.execute i).isReady = false) :
    m.execute i = { m with status := (m.execute i).status } := by
  cases i with
  | halt | input | inputChar => rfl
  | _ => cases h

/-- Any other instruction moves the program counter on, or to its address. -/
theorem pc_execute_of_isReady (h : (m.execute i).isReady) :
    (∃ a, i.JumpsTo m.acc a ∧ (m.execute i).pc = a) ∨
      (∀ a, ¬ i.JumpsTo m.acc a) ∧ (m.execute i).pc = m.pc + 1 := by
  cases i with
  | halt | input | inputChar => cases h
  | branch a => exact Or.inl ⟨a, .branch a, rfl⟩
  | branchZero a =>
    by_cases hz : m.acc.val = 0
    · exact Or.inl ⟨a, .branchZero hz, if_pos hz⟩
    · refine Or.inr ⟨fun b hb => ?_, if_neg hz⟩
      cases hb with
      | branchZero hacc => exact hz hacc
  | branchPositive a =>
    by_cases hp : 0 ≤ m.acc.val
    · exact Or.inl ⟨a, .branchPositive hp, if_pos hp⟩
    · refine Or.inr ⟨fun b hb => ?_, if_neg hp⟩
      cases hb with
      | branchPositive hacc => exact hp hacc
  | add | sub | store | load | output | outputChar => exact Or.inr ⟨nofun, rfl⟩

/-! ## What an operation writes -/

/-- An operation writes to the memory exactly if it is a step that executes a store. -/
theorem memory_perform_cases (op : Operation) :
    (m.perform op).1.memory = m.memory ∨
      ∃ a, op = .step ∧ m.current? = some (.store a) ∧
        (m.perform op).1.memory = m.memory.write a m.acc := by
  rcases perform_cases m op with ⟨rfl, hs⟩ | ⟨_, value, hs⟩ | hs
  · rw [hs]
    cases hi : m.current? with
    | none =>
      rw [(step_of_current?_eq_none hi).2]
      exact Or.inl rfl
    | some i =>
      rw [step_of_current? hi]
      cases i with
      | store a => exact Or.inr ⟨a, rfl, rfl, rfl⟩
      | _ => exact Or.inl rfl
  · rw [hs]
    exact Or.inl rfl
  · rw [hs]
    exact Or.inl rfl

/-- What a machine shows after an operation is what was written, or what it showed before: it is
enough to know it of the steps that execute an instruction and of accepted input. -/
theorem view_perform {v : Machine → Word} {p : Write → Option Word}
    (hstatus : ∀ status, v { m with status } = v m)
    (hexecute : ∀ i, v (m.execute i) = ((m.writeOf? i).bind p).getD (v m))
    (haccept : ∀ value, v (m.accept value) = (p (.passing value)).getD (v m))
    (op : Operation) :
    v (m.perform op).1 = ((m.write? op).bind p).getD (v m) := by
  cases op with
  | step =>
    show v m.step = ((m.current?.bind m.writeOf?).bind p).getD (v m)
    cases hi : m.current? with
    | none =>
      rw [(step_of_current?_eq_none hi).2, hstatus]
      rfl
    | some i => rw [step_of_current? hi, hexecute, Option.bind_some]
  | number value =>
    by_cases hs : m.status = .awaitingNumber
    · simp [perform, inputNumber, write?, hs, haccept]
    · simp [perform, inputNumber, write?, hs]
  | char code =>
    by_cases hs : m.status = .awaitingChar
    · simp [perform, inputChar, write?, hs, haccept]
    · simp [perform, inputChar, write?, hs]

theorem read_perform (a : Address) (op : Operation) :
    (m.perform op).1.memory.read a =
      ((m.write? op).bind (Write.into? a)).getD (m.memory.read a) :=
  view_perform (v := fun m => m.memory.read a) m (fun _ => rfl) (fun i => read_execute m i a)
    (fun _ => rfl) op

theorem io_perform (op : Operation) :
    (m.perform op).1.io = ((m.write? op).bind Write.passing?).getD m.io :=
  view_perform (v := io) m (fun _ => rfl) (io_execute m) (fun _ => rfl) op

/-- What each operation writes, or else leaves as it was, is after all of them what was written
last. -/
theorem view_performAll {v : Machine → Word} {p : Write → Option Word}
    (hview : ∀ m op, v (perform m op).1 = ((m.write? op).bind p).getD (v m))
    (ops : List Operation) :
    v (m.performAll ops) = ((m.writes ops).filterMap p).getLastD (v m) := by
  induction ops generalizing m with
  | nil => rfl
  | cons op ops ih =>
    rw [performAll_cons, ih, hview, writes]
    cases m.write? op with
    | none => rfl
    | some w =>
      rw [Option.toList_some, List.singleton_append, List.filterMap_cons, Option.bind_some]
      cases p w with
      | none => rfl
      | some value => rw [Option.getD_some, List.getLastD_cons]

theorem isReady_eq_false_iff : m.isReady = false ↔ m.status.isTerminal ∨ m.status.isAwaiting := by
  rw [isReady, Bool.and_eq_false_iff, Bool.not_eq_false', Bool.not_eq_false']

/-- A step that ends the program or waits changes nothing but the status.  Any other one executes an
instruction, and moves the program counter on or to the address of a branch. -/
theorem step_leaves :
    (m.step.status.isTerminal ∨ m.step.status.isAwaiting) ∧
        m.step = { m with status := m.step.status } ∨
      m.step.isReady ∧ ∃ i, m.current? = some i ∧
        ((∃ a, i.JumpsTo m.acc a ∧ m.step.pc = a) ∨
          (∀ a, ¬ i.JumpsTo m.acc a) ∧ m.step.pc = m.pc + 1) := by
  rw [← isReady_eq_false_iff]
  cases hi : m.current? with
  | none => exact Or.inl (step_of_current?_eq_none hi)
  | some i =>
    rw [step_of_current? hi]
    cases hr : (m.execute i).isReady with
    | false => exact Or.inl ⟨rfl, execute_of_not_isReady m i hr⟩
    | true => exact Or.inr ⟨rfl, i, rfl, pc_execute_of_isReady m i hr⟩

/-! ## What operations write -/

/-- After any sequence of operations each mailbox holds what was stored in it last, or its word of
the image, and the machine shows the last value that went out or in, or zero.  An operation changes
one mailbox at most, and only by executing a store; a step that ends the program or waits changes
nothing but the status, and any other one moves the program counter on or takes a branch. -/
theorem performAll_leaves_writes (image : Image) (ops : List Operation) :
    let m := (start image).performAll ops
    let writes := (start image).writes ops
    (∀ a, m.memory.read a = (Write.allInto a writes).getLastD (image.read a)) ∧
      m.io = (Write.allPassing writes).getLastD 0 ∧
      (∀ op, (m.perform op).1.memory = m.memory ∨
        ∃ a, op = .step ∧ m.current? = some (.store a) ∧
          (m.perform op).1.memory = m.memory.write a m.acc) ∧
      ((m.step.status.isTerminal ∨ m.step.status.isAwaiting) ∧
          m.step = { m with status := m.step.status } ∨
        m.step.isReady ∧ ∃ i, m.current? = some i ∧
          ((∃ a, i.JumpsTo m.acc a ∧ m.step.pc = a) ∨
            (∀ a, ¬ i.JumpsTo m.acc a) ∧ m.step.pc = m.pc + 1)) := by
  intro m writes
  refine ⟨fun a => ?_, ?_, memory_perform_cases m, step_leaves m⟩
  · exact view_performAll (v := fun m => m.memory.read a) (start image)
      (fun m op => read_perform m a op) ops
  · exact view_performAll (v := io) (start image) io_perform ops

end Machine

end Mailbox
