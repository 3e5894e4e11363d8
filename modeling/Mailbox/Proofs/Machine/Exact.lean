import Mailbox.Proofs.Machine.Step
set_option autoImplicit false

/-!
# The machine with exact arithmetic

An exact machine differs from the machine in one thing only: its accumulator and its mailboxes hold
whole numbers of any size, so its sums and differences are exact.  Main statement: the machine is
the exact machine up to the first sum or difference that fits no word, and there it stops at the
nearer end of the range, with the sign of the exact result.

Normative source: SPEC_FULL.md, section A7 (arithmetic saturates).
-/

namespace Mailbox

namespace Word

/-! ## Numbers and the range of words -/

/-- A whole number that some word has as its value. -/
def Fits (n : Int) : Prop :=
  -9223372036854775808 ≤ n ∧ n ≤ 9223372036854775807

instance (n : Int) : Decidable (Fits n) :=
  inferInstanceAs (Decidable (_ ∧ _))

theorem Fits.val_clamp {n : Int} (h : Fits n) : (clamp n).val = n :=
  val_clamp_of_fits h.1 h.2

/-- A number that does not fit is cut down to the end of the range on its own side of zero. -/
theorem val_clamp_of_not_fits {n : Int} (h : ¬ Fits n) :
    (clamp n).val = if n < 0 then -9223372036854775808 else 9223372036854775807 := by
  unfold Fits at h
  simp only [clamp]
  split <;> omega

theorem val_clamp_eq_zero_iff (n : Int) : (clamp n).val = 0 ↔ n = 0 := by
  simp only [clamp]
  omega

theorem val_clamp_nonneg_iff (n : Int) : 0 ≤ (clamp n).val ↔ 0 ≤ n := by
  simp only [clamp]
  omega

end Word

/-- The instruction a whole number stands for. -/
def Instruction.ofNumber? (n : Int) : Option Instruction :=
  if 0 ≤ n ∧ n ≤ 999 then
    ofDigits? (n.toNat / 100) ⟨n.toNat % 100, Nat.mod_lt _ (by decide)⟩
  else none

theorem Instruction.ofNumber?_val (w : Word) : ofNumber? w.val = decode? w := rfl

/-! ## The exact machine -/

/-- The state of a machine whose mailboxes and accumulator hold whole numbers of any size. -/
structure ExactMachine where
  memory : Address → Int
  pc : Nat
  acc : Int
  status : Status
  io : Int

namespace ExactMachine

/-- The exact machine that is about to execute the first instruction of an image. -/
def start (image : Image) : ExactMachine :=
  ⟨fun a => (image.read a).val, 0, 0, .running, 0⟩

/-- The number at the program counter. -/
def fetch? (m : ExactMachine) : Option Int :=
  if h : m.pc < 100 then some (m.memory ⟨m.pc, h⟩) else none

/-- Whether the next step executes something. -/
def isReady (m : ExactMachine) : Bool :=
  !m.status.isTerminal && !m.status.isAwaiting

/-- Executes an instruction. -/
def execute (m : ExactMachine) : Instruction → ExactMachine
  | .halt => { m with status := .halted }
  | .input => { m with status := .awaitingNumber }
  | .inputChar => { m with status := .awaitingChar }
  | .add a => { m with status := .running, pc := m.pc + 1, acc := m.acc + m.memory a }
  | .sub a => { m with status := .running, pc := m.pc + 1, acc := m.acc - m.memory a }
  | .store a =>
    { m with
      status := .running
      pc := m.pc + 1
      memory := fun i => if i = a then m.acc else m.memory i }
  | .load a => { m with status := .running, pc := m.pc + 1, acc := m.memory a }
  | .branch a => { m with status := .running, pc := a }
  | .branchZero a => { m with status := .running, pc := if m.acc = 0 then a.val else m.pc + 1 }
  | .branchPositive a => { m with status := .running, pc := if 0 ≤ m.acc then a.val else m.pc + 1 }
  | .output => { m with status := .producedNumber, pc := m.pc + 1, io := m.acc }
  | .outputChar => { m with status := .producedChar, pc := m.pc + 1, io := m.acc }

/-- One step. -/
def step (m : ExactMachine) : ExactMachine :=
  if m.isReady then
    match m.fetch? with
    | none => { m with status := .endOfMemory }
    | some n =>
      match Instruction.ofNumber? n with
      | none => { m with status := .invalidInstruction }
      | some i => m.execute i
  else m

/-- Completes the input instruction at the program counter. -/
def accept (m : ExactMachine) (value : Int) : ExactMachine :=
  { m with status := .running, pc := m.pc + 1, acc := value, io := value }

/-- The exact machine after an operation.  Refused input changes nothing. -/
def perform (m : ExactMachine) : Operation → ExactMachine
  | .step => m.step
  | .number value => if m.status = .awaitingNumber then m.accept value.val else m
  | .char code => if m.status = .awaitingChar then m.accept code.toNat else m

/-- The exact machine after a sequence of operations. -/
def performAll (m : ExactMachine) (ops : List Operation) : ExactMachine :=
  ops.foldl perform m

@[simp] theorem performAll_nil (m : ExactMachine) : m.performAll [] = m := rfl

@[simp] theorem performAll_cons (m : ExactMachine) (op : Operation) (ops : List Operation) :
    m.performAll (op :: ops) = (m.perform op).performAll ops := rfl

/-! ## Sums and differences -/

/-- The exact sum or difference that an instruction computes, if it computes one. -/
def sum? (m : ExactMachine) : Instruction → Option Int
  | .add a => some (m.acc + m.memory a)
  | .sub a => some (m.acc - m.memory a)
  | .halt | .store _ | .load _ | .branch _ | .branchZero _ | .branchPositive _ => none
  | .input | .output | .inputChar | .outputChar => none

/-- The exact sum or difference that the next step computes, if it computes one. -/
def nextSum? (m : ExactMachine) : Option Int :=
  if m.isReady then (m.fetch?.bind Instruction.ofNumber?).bind m.sum? else none

/-- The same machine with another accumulator. -/
def withAcc (m : ExactMachine) (n : Int) : ExactMachine := { m with acc := n }

/-- No step among the operations computes a sum or difference that does not fit. -/
def StaysExact (m : ExactMachine) : List Operation → Prop
  | [] => True
  | op :: ops => (op = .step → ∀ n ∈ m.nextSum?, Word.Fits n) ∧ (m.perform op).StaysExact ops

instance instDecidableStaysExact :
    (m : ExactMachine) → (ops : List Operation) → Decidable (m.StaysExact ops)
  | _, [] => .isTrue trivial
  | m, op :: ops =>
    have := instDecidableStaysExact (m.perform op) ops
    inferInstanceAs (Decidable
      ((op = .step → ∀ n ∈ m.nextSum?, Word.Fits n) ∧ (m.perform op).StaysExact ops))

/-- Operations that do not stay exact have a first step whose result does not fit. -/
theorem exists_first_of_not_staysExact {m : ExactMachine} {ops : List Operation}
    (h : ¬ m.StaysExact ops) :
    ∃ before after n, ops = before ++ .step :: after ∧ m.StaysExact before ∧
      (m.performAll before).nextSum? = some n ∧ ¬ Word.Fits n := by
  induction ops generalizing m with
  | nil => exact absurd trivial h
  | cons op ops ih =>
    by_cases hop : op = .step → ∀ n ∈ m.nextSum?, Word.Fits n
    · obtain ⟨before, after, n, rfl, hbefore, hn, hfits⟩ := ih fun hops => h ⟨hop, hops⟩
      exact ⟨op :: before, after, n, rfl, ⟨hop, hbefore⟩, hn, hfits⟩
    · obtain ⟨rfl, hall⟩ := Classical.not_imp.1 hop
      obtain ⟨n, hn⟩ := Classical.not_forall.1 hall
      obtain ⟨hn, hfits⟩ := Classical.not_imp.1 hn
      exact ⟨[], ops, n, rfl, trivial, hn, hfits⟩

theorem staysExact_of_no_step {m : ExactMachine} {ops : List Operation} (h : .step ∉ ops) :
    m.StaysExact ops := by
  induction ops generalizing m with
  | nil => exact trivial
  | cons op ops ih =>
    refine ⟨fun hop => absurd (hop ▸ List.mem_cons_self) h, ih fun hmem => h ?_⟩
    exact List.mem_cons_of_mem op hmem

/-- While no value is awaited, operations other than steps change nothing. -/
theorem performAll_of_no_step {m : ExactMachine} {ops : List Operation}
    (ha : m.status.isAwaiting = false) (hops : .step ∉ ops) : m.performAll ops = m := by
  induction ops with
  | nil => rfl
  | cons op ops ih =>
    have hop : m.perform op = m := by
      cases op with
      | step => exact absurd List.mem_cons_self hops
      | number value => exact if_neg fun hs => absurd ha (by simp [hs, Status.isAwaiting])
      | char code => exact if_neg fun hs => absurd ha (by simp [hs, Status.isAwaiting])
    rw [performAll_cons, hop]
    exact ih fun hmem => hops (List.mem_cons_of_mem op hmem)

/-- A step computes its sum or difference, and goes on to the next mailbox. -/
theorem step_of_nextSum? {m : ExactMachine} {n : Int} (h : m.nextSum? = some n) :
    m.step = { m with status := .running, pc := m.pc + 1, acc := n } := by
  unfold nextSum? at h
  unfold step
  split at h
  · rename_i hr
    obtain ⟨i, hi, hsum⟩ := Option.bind_eq_some_iff.1 h
    obtain ⟨w, hw, hi⟩ := Option.bind_eq_some_iff.1 hi
    rw [if_pos hr, hw]
    simp only [hi]
    cases i with
    | add a => obtain rfl := Option.some.inj hsum; rfl
    | sub a => obtain rfl := Option.some.inj hsum; rfl
    | _ => exact absurd hsum (by simp [sum?])
  · exact absurd h (by simp)

/-- Where the next step goes depends on the accumulator only as far as its sign and its being
zero. -/
theorem pc_step_withAcc {m : ExactMachine} {n : Int} (hzero : n = 0 ↔ m.acc = 0)
    (hsign : 0 ≤ n ↔ 0 ≤ m.acc) : (m.withAcc n).step.pc = m.step.pc := by
  have hready : (m.withAcc n).isReady = m.isReady := rfl
  have hfetch : (m.withAcc n).fetch? = m.fetch? := rfl
  unfold step
  rw [hready, hfetch]
  split
  · cases m.fetch? with
    | none => rfl
    | some w =>
      cases hi : Instruction.ofNumber? w with
      | none => simp only [hi, withAcc]
      | some i =>
        simp only [hi]
        cases i with
        | branchZero a => simp only [execute, withAcc, hzero]
        | branchPositive a => simp only [execute, withAcc, hsign]
        | _ => rfl
  · rfl

end ExactMachine

/-! ## The machine and the exact machine -/

namespace Machine

/-- The machine with its words read as whole numbers. -/
def exact (m : Machine) : ExactMachine :=
  ⟨fun a => (m.memory.read a).val, m.pc, m.acc.val, m.status, m.io.val⟩

theorem fetch?_exact (m : Machine) : m.exact.fetch? = m.fetch?.map Word.val := by
  unfold ExactMachine.fetch? fetch? Image.get?
  by_cases h : m.pc < 100
  · rw [dif_pos h, dif_pos (show m.exact.pc < 100 from h)]
    rfl
  · rw [dif_neg h, dif_neg (show ¬ m.exact.pc < 100 from h)]
    rfl

/-- Executing an instruction differs from executing it exactly in the accumulator only, and only
after a sum or difference. -/
theorem exact_execute (m : Machine) (i : Instruction) :
    (m.execute i).exact =
      match m.exact.sum? i with
      | none => m.exact.execute i
      | some n => (m.exact.execute i).withAcc (Word.clamp n).val := by
  cases i with
  | store a =>
    have hmemory : (fun i => ((m.memory.write a m.acc).read i).val) =
        fun i => if i = a then m.acc.val else (m.memory.read i).val := by
      funext i
      rw [Image.read_write]
      split <;> rfl
    simp only [execute, exact, ExactMachine.sum?, ExactMachine.execute, hmemory]
  | _ => rfl

/-- A step differs from an exact step in the accumulator only, and only after a sum or
difference. -/
theorem exact_step (m : Machine) :
    m.step.exact =
      match m.exact.nextSum? with
      | none => m.exact.step
      | some n => m.exact.step.withAcc (Word.clamp n).val := by
  have hready : m.exact.isReady = m.isReady := rfl
  unfold step ExactMachine.nextSum? ExactMachine.step
  rw [fetch?_exact, hready]
  by_cases hr : m.isReady
  · rw [if_pos hr, if_pos hr, if_pos hr]
    cases m.fetch? with
    | none => rfl
    | some w =>
      cases hi : Instruction.decode? w with
      | none => simp [Instruction.ofNumber?_val, hi]; rfl
      | some i => simp [Instruction.ofNumber?_val, hi, exact_execute]
  · rw [if_neg hr, if_neg hr, if_neg hr]

theorem exact_perform {m : Machine} {op : Operation}
    (h : op = .step → ∀ n ∈ m.exact.nextSum?, Word.Fits n) :
    (m.perform op).1.exact = m.exact.perform op := by
  cases op with
  | step =>
    have hstep := exact_step m
    cases hn : m.exact.nextSum? with
    | none => rw [hn] at hstep; exact hstep
    | some n =>
      have hexact : m.exact.step.acc = n := by rw [ExactMachine.step_of_nextSum? hn]
      rw [hn] at hstep
      simp only [(h rfl n hn).val_clamp] at hstep
      exact hstep.trans (by rw [← hexact]; rfl)
  | number value =>
    by_cases hs : m.status = .awaitingNumber
    · have hexact : m.exact.status = .awaitingNumber := hs
      simp [perform, inputNumber, ExactMachine.perform, hs, hexact]
      rfl
    · have hexact : m.exact.status ≠ .awaitingNumber := hs
      simp [perform, inputNumber, ExactMachine.perform, hs, hexact]
  | char code =>
    by_cases hs : m.status = .awaitingChar
    · have hexact : m.exact.status = .awaitingChar := hs
      simp [perform, inputChar, ExactMachine.perform, hs, hexact]
      rfl
    · have hexact : m.exact.status ≠ .awaitingChar := hs
      simp [perform, inputChar, ExactMachine.perform, hs, hexact]

/-- As long as every sum and difference fits, the machine is the exact machine. -/
theorem exact_performAll {m : Machine} {ops : List Operation} (h : m.exact.StaysExact ops) :
    (m.performAll ops).exact = m.exact.performAll ops := by
  induction ops generalizing m with
  | nil => rfl
  | cons op ops ih =>
    have hop := exact_perform h.1
    rw [performAll_cons, ExactMachine.performAll_cons, ← hop]
    exact ih (hop ▸ h.2)

/-- The next step goes to the same place as an exact step. -/
theorem pc_step_exact (m : Machine) : m.step.pc = m.exact.step.pc := by
  have hpc : m.step.pc = m.step.exact.pc := rfl
  rw [hpc, exact_step]
  cases m.exact.nextSum? <;> rfl

/-- Behind a step whose sum or difference does not fit, the next step goes the same way in both
machines, also when operations that are no steps come in between. -/
theorem pc_step_after_overflow {m : Machine} {n : Int} (hn : m.exact.nextSum? = some n)
    {idle : List Operation} (hidle : .step ∉ idle) :
    (m.step.performAll idle).step.pc = (m.exact.step.performAll idle).step.pc := by
  have hstep := ExactMachine.step_of_nextSum? hn
  have hclamped : m.step.exact = m.exact.step.withAcc (Word.clamp n).val := by
    rw [exact_step, hn]
  have hrunning : m.exact.step.status.isAwaiting = false := by rw [hstep]; rfl
  have hacc : m.exact.step.acc = n := by rw [hstep]
  have hidleClamped : (m.exact.step.withAcc (Word.clamp n).val).performAll idle = _ :=
    ExactMachine.performAll_of_no_step hrunning hidle
  rw [pc_step_exact, exact_performAll (ExactMachine.staysExact_of_no_step hidle), hclamped,
    hidleClamped, ExactMachine.performAll_of_no_step hrunning hidle]
  apply ExactMachine.pc_step_withAcc
  · rw [hacc]
    exact Word.val_clamp_eq_zero_iff n
  · rw [hacc]
    exact Word.val_clamp_nonneg_iff n

/-- Beside an exact machine with the same image and the same operations, the machine is equal to it
as long as all sums and differences fit.  At the first that does not, only the accumulators come to
differ: that of the machine is the nearer end of the range, which is zero or negative exactly when
the exact result is, so that a branch executed next is taken in both or in neither.  Operations
without such a first step have only sums and differences that fit. -/
theorem exact_until_overflow (image : Image) (ops : List Operation) :
    let m := (start image).performAll ops
    let e := (ExactMachine.start image).performAll ops
    ((ExactMachine.start image).StaysExact ops →
      m.exact = e ∧
        ∀ n, e.nextSum? = some n → ¬ Word.Fits n →
          e.step.acc = n ∧
          m.step.exact =
            e.step.withAcc (if n < 0 then -9223372036854775808 else 9223372036854775807) ∧
          (m.step.acc.val = 0 ↔ e.step.acc = 0) ∧
          (0 ≤ m.step.acc.val ↔ 0 ≤ e.step.acc) ∧
          ∀ idle, .step ∉ idle →
            (m.step.performAll idle).step.pc = (e.step.performAll idle).step.pc) ∧
      (¬ (ExactMachine.start image).StaysExact ops →
        ∃ before after n, ops = before ++ .step :: after ∧
          (ExactMachine.start image).StaysExact before ∧
          ((ExactMachine.start image).performAll before).nextSum? = some n ∧ ¬ Word.Fits n) := by
  refine ⟨fun hexact => ?_, ExactMachine.exists_first_of_not_staysExact⟩
  have heq : ((start image).performAll ops).exact = (ExactMachine.start image).performAll ops :=
    exact_performAll (m := start image) hexact
  refine ⟨heq, fun n hn hfits => ?_⟩
  rw [← heq] at hn ⊢
  have hacc : ((start image).performAll ops).exact.step.acc = n := by
    rw [ExactMachine.step_of_nextSum? hn]
  have hstep : ((start image).performAll ops).step.exact =
      ((start image).performAll ops).exact.step.withAcc (Word.clamp n).val := by
    rw [exact_step, hn]
  have hclamp : ((start image).performAll ops).step.acc.val = (Word.clamp n).val :=
    congrArg ExactMachine.acc hstep
  refine ⟨hacc, ?_, ?_, ?_, fun idle hidle => pc_step_after_overflow hn hidle⟩
  · rw [hstep, Word.val_clamp_of_not_fits hfits]
  · rw [hacc, hclamp]
    exact Word.val_clamp_eq_zero_iff n
  · rw [hacc, hclamp]
    exact Word.val_clamp_nonneg_iff n

/-- Zero less the least word is one too many for a word; the branch behind it is taken. -/
theorem exact_until_overflow_least :
    let image := Image.ofList [901, 204, 800, 0, Word.clamp (-9223372036854775808)]
    let ops : List Operation := [.step, .number 0]
    let m := (start image).performAll ops
    let e := (ExactMachine.start image).performAll ops
    ((ExactMachine.start image).StaysExact ops ∧ e.nextSum? = some 9223372036854775808 ∧
        ¬ Word.Fits 9223372036854775808 ∧ .step ∉ [Operation.char 65]) ∧
      m.exact = e ∧ e.step.acc = 9223372036854775808 ∧
      m.step.exact = e.step.withAcc 9223372036854775807 ∧
      (m.step.performAll [.char 65]).step.pc = (e.step.performAll [.char 65]).step.pc ∧
      (e.step.performAll [.char 65]).step.pc = 0 := by
  intro image ops m e
  have hexact : (ExactMachine.start image).StaysExact ops := by decide +kernel
  have hnext : e.nextSum? = some 9223372036854775808 := by decide +kernel
  have hfits : ¬ Word.Fits 9223372036854775808 := by decide
  have hidle : .step ∉ [Operation.char 65] := by decide
  obtain ⟨heq, hoverflow⟩ := (exact_until_overflow image ops).1 hexact
  obtain ⟨hacc, hstep, _, _, hpc⟩ := hoverflow _ hnext hfits
  exact ⟨⟨hexact, hnext, hfits, hidle⟩, heq, hacc, hstep, hpc _ hidle, by decide +kernel⟩

end Machine

end Mailbox
