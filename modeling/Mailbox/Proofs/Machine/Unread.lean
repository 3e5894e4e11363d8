import Mailbox.Proofs.Machine.Ignored
import Mailbox.Proofs.Machine.Writes
import Mathlib.Data.List.Forall2
set_option autoImplicit false

/-!
# Mailboxes that are not read

A step reads the mailbox at the program counter, and a sum, a difference or a load reads the mailbox
of its address as well.  Main statement: the word of a mailbox makes no difference as long as nobody
reads it.  Two machines whose images differ there meet every operation in the same state but for
this word, and respond alike; and once the mailbox is written into, they are the same machine.
-/

namespace Mailbox

/-- The mailbox whose word an instruction works with. -/
def Instruction.source? : Instruction → Option Address
  | .add a | .sub a | .load a => some a
  | .store _ | .branch _ | .branchZero _ | .branchPositive _ => none
  | .halt | .input | .output | .inputChar | .outputChar => none

namespace Machine

/-- The next step reads a mailbox: it fetches the word there, or the instruction that it executes
works with it. -/
def Reads (m : Machine) (k : Address) : Prop :=
  (m.isReady ∧ m.pc = k.val) ∨ m.current?.bind Instruction.source? = some k

instance (m : Machine) (k : Address) : Decidable (m.Reads k) :=
  inferInstanceAs (Decidable (_ ∨ _))

/-- Two machines are the same but for the word of one mailbox. -/
structure SameBut (k : Address) (m n : Machine) : Prop where
  pc_eq : m.pc = n.pc
  acc_eq : m.acc = n.acc
  status_eq : m.status = n.status
  io_eq : m.io = n.io
  read_eq : ∀ a, a ≠ k → m.memory.read a = n.memory.read a

end Machine

namespace Exchange

/-- The operation is a step that reads a mailbox. -/
def Reads (x : Exchange) (k : Address) : Prop :=
  x.operation = .step ∧ x.before.Reads k

instance (x : Exchange) (k : Address) : Decidable (x.Reads k) :=
  inferInstanceAs (Decidable (_ ∧ _))

/-- The operation is a step that executes a store into a mailbox. -/
def Stores (x : Exchange) (k : Address) : Prop :=
  x.operation = .step ∧ x.before.current? = some (.store k)

instance (x : Exchange) (k : Address) : Decidable (x.Stores k) :=
  inferInstanceAs (Decidable (_ ∧ _))

/-- The same operation meets machines that are the same but for the word of one mailbox, and gets
the same response. -/
structure SameBut (k : Address) (x y : Exchange) : Prop where
  before : x.before.SameBut k y.before
  operation_eq : x.operation = y.operation
  response_eq : x.response = y.response

end Exchange

namespace Machine

variable {k : Address} {m n : Machine}

/-! ## What can be seen of such machines -/

namespace SameBut

theorem isReady_eq (h : m.SameBut k n) : m.isReady = n.isReady := by
  rw [isReady, isReady, h.status_eq]

theorem outputNumber?_eq (h : m.SameBut k n) : m.outputNumber? = n.outputNumber? := by
  rw [outputNumber?, outputNumber?, h.status_eq, h.io_eq]

theorem outputChar?_eq (h : m.SameBut k n) : m.outputChar? = n.outputChar? := by
  rw [outputChar?, outputChar?, h.status_eq, h.io_eq]

/-- A word elsewhere is fetched alike. -/
theorem fetch?_eq (h : m.SameBut k n) (hpc : m.pc ≠ k.val) : m.fetch? = n.fetch? := by
  unfold fetch? Image.get?
  rw [← h.pc_eq]
  split
  · rename_i hlt
    rw [h.read_eq ⟨m.pc, hlt⟩ fun heq => hpc (congrArg Fin.val heq)]
  · rfl

/-! ## One operation -/

theorem with_status (h : m.SameBut k n) (status : Status) :
    SameBut k { m with status := status } { n with status := status } :=
  { h with status_eq := rfl }

theorem accept (h : m.SameBut k n) (value : Word) :
    (m.accept value).SameBut k (n.accept value) where
  pc_eq := congrArg (· + 1) h.pc_eq
  acc_eq := rfl
  status_eq := rfl
  io_eq := rfl
  read_eq := h.read_eq

/-- An instruction that works with no word of the mailbox is executed alike. -/
theorem execute {i : Instruction} (h : m.SameBut k n) (hi : i.source? ≠ some k) :
    (m.execute i).SameBut k (n.execute i) := by
  have hnext : m.pc + 1 = n.pc + 1 := congrArg (· + 1) h.pc_eq
  cases i with
  | halt => exact h.with_status .halted
  | input => exact h.with_status .awaitingNumber
  | inputChar => exact h.with_status .awaitingChar
  | add a =>
    have hword := h.read_eq a fun heq => hi (congrArg some heq)
    exact ⟨hnext, congrArg₂ (· + ·) h.acc_eq hword, rfl, h.io_eq, h.read_eq⟩
  | sub a =>
    have hword := h.read_eq a fun heq => hi (congrArg some heq)
    exact ⟨hnext, congrArg₂ (· - ·) h.acc_eq hword, rfl, h.io_eq, h.read_eq⟩
  | load a =>
    have hword := h.read_eq a fun heq => hi (congrArg some heq)
    exact ⟨hnext, hword, rfl, h.io_eq, h.read_eq⟩
  | store a =>
    refine ⟨hnext, h.acc_eq, rfl, h.io_eq, fun b hb => ?_⟩
    simp only [Machine.execute, Image.read_write, h.acc_eq, h.read_eq b hb]
  | branch a => exact ⟨rfl, h.acc_eq, rfl, h.io_eq, h.read_eq⟩
  | branchZero a =>
    refine ⟨?_, h.acc_eq, rfl, h.io_eq, h.read_eq⟩
    simp only [Machine.execute, h.acc_eq, hnext]
  | branchPositive a =>
    refine ⟨?_, h.acc_eq, rfl, h.io_eq, h.read_eq⟩
    simp only [Machine.execute, h.acc_eq, hnext]
  | output => exact ⟨hnext, h.acc_eq, rfl, h.acc_eq, h.read_eq⟩
  | outputChar => exact ⟨hnext, h.acc_eq, rfl, h.acc_eq, h.read_eq⟩

/-- A step that does not read the mailbox fetches and executes the same in both machines. -/
theorem step (h : m.SameBut k n) (hk : ¬ m.Reads k) : m.step.SameBut k n.step := by
  cases hr : m.isReady with
  | false =>
    rw [step_of_not_isReady hr, step_of_not_isReady (h.isReady_eq ▸ hr)]
    exact h
  | true =>
    have hfetch : m.fetch? = n.fetch? := h.fetch?_eq fun hpc => hk (Or.inl ⟨hr, hpc⟩)
    have hcurrent : m.current? = m.fetch?.bind Instruction.decode? := if_pos hr
    unfold Machine.step
    rw [← h.isReady_eq, ← hfetch, if_pos hr, if_pos hr]
    cases hw : m.fetch? with
    | none => exact h.with_status .endOfMemory
    | some w =>
      cases hi : Instruction.decode? w with
      | none =>
        simp only [hi]
        exact h.with_status .invalidInstruction
      | some i =>
        simp only [hi]
        refine h.execute fun hsource => hk (Or.inr ?_)
        rw [hcurrent, hw, Option.bind_some, hi]
        exact hsource

/-- An operation that does not read the mailbox does the same to both machines, and they respond
alike. -/
theorem perform {op : Operation} (h : m.SameBut k n) (hk : op = .step → ¬ m.Reads k) :
    (m.perform op).1.SameBut k (n.perform op).1 ∧ (m.perform op).2 = (n.perform op).2 := by
  cases op with
  | step =>
    have hstep := h.step (hk rfl)
    exact ⟨hstep, congrArg Response.status hstep.status_eq⟩
  | number value =>
    unfold Machine.perform inputNumber
    rw [← h.status_eq]
    by_cases hs : m.status = .awaitingNumber
    · simp only [if_pos hs]
      exact ⟨h.accept value, trivial⟩
    · simp only [if_neg hs]
      exact ⟨h, trivial⟩
  | char code =>
    unfold Machine.perform inputChar
    rw [← h.status_eq]
    by_cases hs : m.status = .awaitingChar
    · simp only [if_pos hs]
      exact ⟨h.accept (.ofCode code), trivial⟩
    · simp only [if_neg hs]
      exact ⟨h, trivial⟩

/-- The current instruction is the same. -/
theorem current?_eq (h : m.SameBut k n) (hk : ¬ m.Reads k) : m.current? = n.current? := by
  unfold current?
  rw [← h.isReady_eq]
  split
  · rename_i hr
    rw [h.fetch?_eq fun hpc => hk (Or.inl ⟨hr, hpc⟩)]
  · rfl

/-- A store into the mailbox leaves no difference. -/
theorem step_eq_of_store (h : m.SameBut k n) (hk : ¬ m.Reads k)
    (hstore : m.current? = some (.store k)) : m.step = n.step := by
  have hother : n.current? = some (.store k) := h.current?_eq hk ▸ hstore
  have hmemory : m.memory.write k n.acc = n.memory.write k n.acc := by
    apply Image.ext_read
    intro a
    rw [Image.read_write, Image.read_write]
    split
    · rfl
    · rename_i ha
      exact h.read_eq a ha
  rw [step_of_current? hstore, step_of_current? hother]
  simp only [Machine.execute, h.pc_eq, h.acc_eq, h.io_eq, hmemory]

/-! ## Sequences of operations -/

variable {ops : List Operation}

/-- Operations that do not read the mailbox do the same to both machines, one after another. -/
theorem performAll (h : m.SameBut k n) (hunread : ∀ x ∈ m.exchanges ops, ¬ x.Reads k) :
    (m.performAll ops).SameBut k (n.performAll ops) ∧
      List.Forall₂ (Exchange.SameBut k) (m.exchanges ops) (n.exchanges ops) := by
  induction ops generalizing m n with
  | nil => exact ⟨h, .nil⟩
  | cons op ops ih =>
    obtain ⟨hfirst, hrest⟩ := List.forall_mem_cons.1 hunread
    obtain ⟨hsame, hresponse⟩ := h.perform fun hop hreads => hfirst ⟨hop, hreads⟩
    obtain ⟨hfinal, hexchanges⟩ := ih hsame hrest
    exact ⟨hfinal, .cons ⟨h, rfl, hresponse⟩ hexchanges⟩

/-- If one of the operations stores into the mailbox, both machines come to the same state. -/
theorem performAll_eq_of_stores (h : m.SameBut k n)
    (hunread : ∀ x ∈ m.exchanges ops, ¬ x.Reads k) (hstores : ∃ x ∈ m.exchanges ops, x.Stores k) :
    m.performAll ops = n.performAll ops := by
  induction ops generalizing m n with
  | nil =>
    obtain ⟨x, hx, _⟩ := hstores
    exact absurd hx List.not_mem_nil
  | cons op ops ih =>
    obtain ⟨hfirst, hrest⟩ := List.forall_mem_cons.1 hunread
    obtain ⟨x, hx, hstore⟩ := hstores
    rw [performAll_cons, performAll_cons]
    rcases List.mem_cons.1 hx with rfl | hx
    · obtain ⟨rfl, hcurrent⟩ := hstore
      exact congrArg (Machine.performAll · ops)
        (h.step_eq_of_store (fun hreads => hfirst ⟨rfl, hreads⟩) hcurrent)
    · have hsame := (h.perform fun hop hreads => hfirst ⟨hop, hreads⟩).1
      exact ih hsame hrest ⟨x, hx, hstore⟩

end SameBut

theorem sameBut_start {a b : Image} (h : ∀ i, i ≠ k → a.read i = b.read i) :
    (start a).SameBut k (start b) :=
  ⟨rfl, rfl, rfl, rfl, h⟩

/-- Fresh machines whose images differ in one mailbox at most are the same but for its word after
any sequence of operations in which the first of them does not read it, with the same output, and
so they were before each of the operations, to which they responded alike.  If one of the operations
stored into the mailbox, they are the same altogether. -/
theorem unread_mailbox_makes_no_difference (k : Address) {a b : Image}
    (hsame : ∀ i, i ≠ k → a.read i = b.read i) (ops : List Operation)
    (hunread : ∀ x ∈ (start a).exchanges ops, ¬ x.Reads k) :
    let m := (start a).performAll ops
    let n := (start b).performAll ops
    m.SameBut k n ∧ m.outputNumber? = n.outputNumber? ∧ m.outputChar? = n.outputChar? ∧
      List.Forall₂ (Exchange.SameBut k) ((start a).exchanges ops) ((start b).exchanges ops) ∧
      ((∃ x ∈ (start a).exchanges ops, x.Stores k) → m = n) := by
  intro m n
  have hstart := sameBut_start hsame
  obtain ⟨hfinal, hexchanges⟩ := hstart.performAll hunread
  exact ⟨hfinal, hfinal.outputNumber?_eq, hfinal.outputChar?_eq, hexchanges,
    hstart.performAll_eq_of_stores hunread⟩

/-- A program that writes the branch at its end itself, whatever was there at first. -/
theorem unread_mailbox_makes_no_difference_rewritten :
    let a := Image.ofList [901, 302, 0]
    let b := Image.ofList [901, 302, Word.clamp (-1)]
    let ops : List Operation := [.step, .char 65, .number 600, .step]
    ((∀ i, i ≠ 2 → a.read i = b.read i) ∧ (∀ x ∈ (start a).exchanges ops, ¬ x.Reads 2) ∧
        ∃ x ∈ (start a).exchanges ops, x.Stores 2) ∧
      a.read 2 ≠ b.read 2 ∧ ((start a).performAll ops).pc = 2 ∧
      (start a).performAll ops = (start b).performAll ops := by
  intro a b ops
  have hsame : ∀ i, i ≠ 2 → a.read i = b.read i := by decide +kernel
  have hunread : ∀ x ∈ (start a).exchanges ops, ¬ x.Reads 2 := by decide +kernel
  have hstores : ∃ x ∈ (start a).exchanges ops, x.Stores 2 := by decide +kernel
  obtain ⟨_, _, _, _, hequal⟩ := unread_mailbox_makes_no_difference 2 hsame ops hunread
  exact ⟨⟨hsame, hunread, hstores⟩, by decide +kernel, by decide +kernel, hequal hstores⟩

end Machine

end Mailbox
