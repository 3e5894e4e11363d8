import Mailbox.Proofs.Machine.Step
set_option autoImplicit false

/-!
# The machine over whole runs

A host may step a machine and offer it numbers and characters in any order.  Whatever it does, the
program counter stays inside the mailboxes or just behind them, and the status says which word the
program counter stands at or has just passed.  A machine that takes its numbers on trust, and has
no arm for the instructions that are dealt with before it moves on, therefore never gets stuck: it
does the same as the machine.

Normative source: SPEC_FULL.md, sections 3 (MachineState) and 4.4.
-/

namespace Mailbox

/-! ## A machine that takes its numbers on trust -/

/-- What would stop a machine that does not ask first: a mailbox that is not there, or an
instruction it has no arm for. -/
inductive Trap where
  | noMailbox (n : Nat)
  | noArm (i : Instruction)
  deriving DecidableEq, Repr

namespace Image

/-- The word of the mailbox with a number. -/
def readTrusting (image : Image) (n : Nat) : Except Trap Word :=
  if h : n < 100 then .ok (image.read ⟨n, h⟩) else .error (.noMailbox n)

/-- The image with another word in the mailbox with a number. -/
def writeTrusting (image : Image) (n : Nat) (w : Word) : Except Trap Image :=
  if h : n < 100 then .ok (image.write ⟨n, h⟩ w) else .error (.noMailbox n)

@[simp] theorem readTrusting_val (image : Image) (a : Address) :
    image.readTrusting a.val = .ok (image.read a) :=
  dif_pos a.isLt

@[simp] theorem writeTrusting_val (image : Image) (a : Address) (w : Word) :
    image.writeTrusting a.val w = .ok (image.write a w) :=
  dif_pos a.isLt

end Image

/-- The status of an instruction that stays at the program counter. -/
def Instruction.stays? : Instruction → Option Status
  | .halt => some .halted
  | .input => some .awaitingNumber
  | .inputChar => some .awaitingChar
  | .add _ | .sub _ | .store _ | .load _ => none
  | .branch _ | .branchZero _ | .branchPositive _ => none
  | .output | .outputChar => none

namespace Machine

/-- Executes an instruction that the program counter has moved past. -/
def moveTrusting (m : Machine) : Instruction → Except Trap Machine
  | .add a => do
    let w ← m.memory.readTrusting a.val
    .ok { m with acc := m.acc + w }
  | .sub a => do
    let w ← m.memory.readTrusting a.val
    .ok { m with acc := m.acc - w }
  | .store a => do
    let memory ← m.memory.writeTrusting a.val m.acc
    .ok { m with memory := memory }
  | .load a => do
    let w ← m.memory.readTrusting a.val
    .ok { m with acc := w }
  | .branch a => .ok { m with pc := a }
  | .branchZero a => .ok (if m.acc.val = 0 then { m with pc := a } else m)
  | .branchPositive a => .ok (if 0 ≤ m.acc.val then { m with pc := a } else m)
  | .output => .ok { m with status := .producedNumber, io := m.acc }
  | .outputChar => .ok { m with status := .producedChar, io := m.acc }
  | .halt => .error (.noArm .halt)
  | .input => .error (.noArm .input)
  | .inputChar => .error (.noArm .inputChar)

/-- One step.  Only the program counter is compared with the number of mailboxes. -/
def stepTrusting (m : Machine) : Except Trap Machine :=
  if m.isReady then
    if 100 ≤ m.pc then .ok { m with status := .endOfMemory }
    else do
      let w ← m.memory.readTrusting m.pc
      match Instruction.decode? w with
      | none => .ok { m with status := .invalidInstruction }
      | some i =>
        match i.stays? with
        | some status => .ok { m with status := status }
        | none => moveTrusting { m with status := .running, pc := m.pc + 1 } i
  else .ok m

/-- An operation of a host.  Input goes to no mailbox. -/
def performTrusting (m : Machine) : Operation → Except Trap Machine
  | .step => m.stepTrusting
  | .number value => .ok (m.perform (.number value)).1
  | .char code => .ok (m.perform (.char code)).1

/-- A sequence of operations; the first trap ends it. -/
def performAllTrusting (m : Machine) : List Operation → Except Trap Machine
  | [] => .ok m
  | op :: ops => do (← m.performTrusting op).performAllTrusting ops

/-- An instruction that does not stay is executed as if its arm were the only one. -/
theorem moveTrusting_eq (m : Machine) {i : Instruction} (h : i.stays? = none) :
    moveTrusting { m with status := .running, pc := m.pc + 1 } i = .ok (m.execute i) := by
  cases i with
  | halt => exact absurd h (by decide)
  | input => exact absurd h (by decide)
  | inputChar => exact absurd h (by decide)
  | branchZero a => by_cases hz : m.acc.val = 0 <;> simp [moveTrusting, execute, hz]
  | branchPositive a => by_cases hp : 0 ≤ m.acc.val <;> simp [moveTrusting, execute, hp]
  | add a => simp [moveTrusting, execute]; rfl
  | sub a => simp [moveTrusting, execute]; rfl
  | store a => simp [moveTrusting, execute]; rfl
  | load a => simp [moveTrusting, execute]; rfl
  | branch a => rfl
  | output => rfl
  | outputChar => rfl

theorem execute_of_stays? (m : Machine) {i : Instruction} {status : Status}
    (h : i.stays? = some status) : m.execute i = { m with status := status } := by
  cases i <;> simp [Instruction.stays?] at h <;> subst h <;> rfl

/-- A step on trust is a step. -/
theorem stepTrusting_eq (m : Machine) : m.stepTrusting = .ok m.step := by
  unfold stepTrusting
  by_cases hr : m.isReady
  · rw [if_pos hr]
    by_cases hpc : 100 ≤ m.pc
    · have hf := (fetch?_eq_none_iff m).2 hpc
      rw [if_pos hpc]
      simp [step, hr, hf]
    · have hlt : m.pc < 100 := by omega
      have hf : m.fetch? = some (m.memory.read ⟨m.pc, hlt⟩) := dif_pos hlt
      have hread : m.memory.readTrusting m.pc = .ok (m.memory.read ⟨m.pc, hlt⟩) := dif_pos hlt
      rw [if_neg hpc, hread]
      unfold step
      rw [if_pos hr, hf]
      simp only [bind, Except.bind]
      cases Instruction.decode? (m.memory.read ⟨m.pc, hlt⟩) with
      | none => rfl
      | some i =>
        cases hi : i.stays? with
        | none =>
          simp only [hi]
          exact moveTrusting_eq m hi
        | some status => simp only [hi, execute_of_stays? m hi]
  · rw [if_neg hr, step_of_not_isReady (by simpa using hr)]

theorem performTrusting_eq (m : Machine) (op : Operation) :
    m.performTrusting op = .ok (m.perform op).1 := by
  cases op with
  | step => exact stepTrusting_eq m
  | number value => rfl
  | char code => rfl

/-- No sequence of operations runs into a trap. -/
theorem performAllTrusting_eq (m : Machine) (ops : List Operation) :
    m.performAllTrusting ops = .ok (m.performAll ops) := by
  induction ops generalizing m with
  | nil => rfl
  | cons op ops ih =>
    rw [performAllTrusting, performTrusting_eq, performAll_cons]
    exact ih _

/-! ## What the status says -/

/-- The word that the program counter stands at, or has just passed, is the one the status
speaks of. -/
def StatusFits (m : Machine) : Prop :=
  match m.status with
  | .running => True
  | .endOfMemory => m.pc = 100
  | .halted => m.DecodesAt m.pc (some .halt)
  | .invalidInstruction => m.DecodesAt m.pc none
  | .awaitingNumber => m.DecodesAt m.pc (some .input)
  | .awaitingChar => m.DecodesAt m.pc (some .inputChar)
  | .producedNumber => 1 ≤ m.pc ∧ m.DecodesAt (m.pc - 1) (some .output) ∧ m.io = m.acc
  | .producedChar => 1 ≤ m.pc ∧ m.DecodesAt (m.pc - 1) (some .outputChar) ∧ m.io = m.acc

/-- What every operation keeps. -/
structure Invariant (m : Machine) : Prop where
  pc_le : m.pc ≤ 100
  statusFits : m.StatusFits

theorem invariant_start (image : Image) : (start image).Invariant :=
  ⟨Nat.zero_le 100, trivial⟩

/-- A machine in the middle of its program has nothing to show but its program counter. -/
theorem Invariant.of_running {m : Machine} (h : m.status = .running) (hpc : m.pc ≤ 100) :
    m.Invariant := by
  refine ⟨hpc, ?_⟩
  unfold StatusFits
  rw [h]
  trivial

/-- A machine that waits stands at an input instruction. -/
theorem Invariant.pc_lt_of_isAwaiting {m : Machine} (h : m.Invariant) (ha : m.status.isAwaiting) :
    m.pc < 100 := by
  have hfits := h.statusFits
  unfold StatusFits at hfits
  cases hs : m.status with
  | awaitingNumber => rw [hs] at hfits; exact hfits.lt
  | awaitingChar => rw [hs] at hfits; exact hfits.lt
  | _ => rw [hs] at ha; exact absurd ha (by decide)

theorem invariant_execute {m : Machine} {i : Instruction} (hd : m.DecodesAt m.pc (some i)) :
    (m.execute i).Invariant := by
  have hpc := hd.lt
  have passed : (m.pc + 1) - 1 = m.pc := by omega
  cases i with
  | halt => exact ⟨Nat.le_of_lt hpc, hd⟩
  | input => exact ⟨Nat.le_of_lt hpc, hd⟩
  | inputChar => exact ⟨Nat.le_of_lt hpc, hd⟩
  | output => exact ⟨hpc, Nat.le_add_left 1 m.pc, by rw [← passed] at hd; exact hd, rfl⟩
  | outputChar => exact ⟨hpc, Nat.le_add_left 1 m.pc, by rw [← passed] at hd; exact hd, rfl⟩
  | branch a => exact .of_running rfl (Nat.le_of_lt a.isLt)
  | branchZero a =>
    refine .of_running rfl ?_
    have ha := a.isLt
    simp only [execute]
    split <;> omega
  | branchPositive a =>
    refine .of_running rfl ?_
    have ha := a.isLt
    simp only [execute]
    split <;> omega
  | add a => exact .of_running rfl hpc
  | sub a => exact .of_running rfl hpc
  | store a => exact .of_running rfl hpc
  | load a => exact .of_running rfl hpc

theorem Invariant.step {m : Machine} (h : m.Invariant) : m.step.Invariant := by
  by_cases hr : m.isReady
  · rcases step_cases hr with ⟨hpc, hs⟩ | ⟨hd, hs⟩ | ⟨i, hd, hs⟩
    · rw [hs]
      exact ⟨h.pc_le, Nat.le_antisymm h.pc_le hpc⟩
    · rw [hs]
      exact ⟨h.pc_le, hd⟩
    · rw [hs]
      exact invariant_execute hd
  · rw [step_of_not_isReady (by simpa using hr)]
    exact h

theorem Invariant.perform {m : Machine} (h : m.Invariant) (op : Operation) :
    (m.perform op).1.Invariant := by
  rcases perform_cases m op with ⟨_, hs⟩ | ⟨ha, value, hs⟩ | hs
  · rw [hs]
    exact h.step
  · rw [hs]
    exact .of_running rfl (h.pc_lt_of_isAwaiting ha)
  · rw [hs]
    exact h

theorem invariant_performAll (image : Image) (ops : List Operation) :
    ((start image).performAll ops).Invariant :=
  performAll_induction (fun _ op h => h.perform op) (invariant_start image) ops

/-! ## Output -/

/-- A number is there to be read exactly after a number was put out, and it is the accumulator. -/
theorem Invariant.outputNumber?_eq {m : Machine} (h : m.Invariant) :
    m.outputNumber? = if m.status = .producedNumber then some m.acc else none := by
  have hfits := h.statusFits
  unfold outputNumber?
  by_cases hs : m.status = .producedNumber
  · unfold StatusFits at hfits
    rw [hs] at hfits
    rw [if_pos hs, if_pos hs, hfits.2.2]
  · rw [if_neg hs, if_neg hs]

theorem isSome_toCode?_iff (w : Word) :
    w.toCode?.isSome ↔ 0 ≤ w.val ∧ w.val ≤ 4294967295 := by
  unfold Word.toCode?
  split
  · rename_i h
    exact ⟨fun _ => ⟨h.1, by omega⟩, fun _ => rfl⟩
  · rename_i h
    exact ⟨fun hn => absurd hn (by simp), fun hr => absurd ⟨hr.1, by omega⟩ h⟩

/-- A code is there to be read exactly after a character was put out whose value is a code. -/
theorem Invariant.isSome_outputChar?_iff {m : Machine} (h : m.Invariant) :
    m.outputChar?.isSome ↔
      m.status = .producedChar ∧ 0 ≤ m.acc.val ∧ m.acc.val ≤ 4294967295 := by
  have hfits := h.statusFits
  unfold outputChar?
  by_cases hs : m.status = .producedChar
  · unfold StatusFits at hfits
    rw [hs] at hfits
    rw [if_pos hs, hfits.2.2, isSome_toCode?_iff]
    exact ⟨fun hr => ⟨hs, hr⟩, fun hr => hr.2⟩
  · rw [if_neg hs]
    exact ⟨fun hn => absurd hn (by simp), fun hr => absurd hr.1 hs⟩

/-! ## Whole runs -/

/-- After any sequence of operations on a fresh machine the program counter and the status fit the
memory, output is there exactly when the status says so, and no operation asked for a mailbox that
is not there or ran into a missing arm. -/
theorem performAll_start_invariant (image : Image) (ops : List Operation) :
    let m := (start image).performAll ops
    m.Invariant ∧
      (∀ value, m.outputNumber? = some value ↔ m.status = .producedNumber ∧ value = m.acc) ∧
      (m.outputChar?.isSome ↔
        m.status = .producedChar ∧ 0 ≤ m.acc.val ∧ m.acc.val ≤ 4294967295) ∧
      (start image).performAllTrusting ops = .ok m := by
  intro m
  have hi : m.Invariant :=
    performAll_induction (fun _ op h => h.perform op) (invariant_start image) ops
  refine ⟨hi, ?_, hi.isSome_outputChar?_iff, performAllTrusting_eq _ _⟩
  intro value
  rw [hi.outputNumber?_eq]
  constructor
  · intro hv
    split at hv
    · rename_i hs
      exact ⟨hs, (Option.some.inj hv).symm⟩
    · exact absurd hv (by simp)
  · rintro ⟨hs, rfl⟩
    rw [if_pos hs]

end Machine

end Mailbox
