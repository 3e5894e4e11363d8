import Mailbox.Proofs.Assembly.Assembling
import Mailbox.Proofs.Machine.Invariant
set_option autoImplicit false

/-!
# Programs that cannot write

A memory of instructions that never store stays as it is, so the machine never meets a word that is
no instruction.  If the last word also keeps the program counter from passing it, the program has no
way to go wrong.  Main statement: this holds of such memories whatever the host does, and assembly
without data and stores gives such a memory.

Normative source: SPEC_FULL.md, section 4.4 (failure semantics).
-/

namespace Mailbox

namespace Image

/-- Every word is an instruction, and none of them stores. -/
def ReadOnly (image : Image) : Prop :=
  ∀ a, ∃ i, Instruction.decode? (image.read a) = some i ∧ ∀ b, i ≠ .store b

/-- The last word halts or branches whatever the accumulator is. -/
def Fenced (image : Image) : Prop :=
  ∃ i, Instruction.decode? (image.read 99) = some i ∧ (i = .halt ∨ ∃ b, i = .branch b)

end Image

namespace Machine

variable {m : Machine} {i : Instruction} {n : Nat}

/-! ## Memory -/

theorem memory_execute (h : ∀ b, i ≠ .store b) : (m.execute i).memory = m.memory := by
  cases i with
  | store b => exact absurd rfl (h b)
  | _ => rfl

theorem not_store_of_decodesAt (h : m.memory.ReadOnly) (hd : m.DecodesAt n (some i)) :
    ∀ b, i ≠ .store b := by
  obtain ⟨a, _, hi⟩ := hd
  obtain ⟨k, hk, hstore⟩ := h a
  obtain rfl := Option.some.inj (hi.symm.trans hk)
  exact hstore

theorem memory_step (h : m.memory.ReadOnly) : m.step.memory = m.memory := by
  by_cases hr : m.isReady
  · rcases step_cases hr with ⟨_, hs⟩ | ⟨_, hs⟩ | ⟨i, hd, hs⟩
    · rw [hs]
    · rw [hs]
    · rw [hs, memory_execute (not_store_of_decodesAt h hd)]
  · rw [step_of_not_isReady (by simpa using hr)]

theorem memory_perform (h : m.memory.ReadOnly) (op : Operation) :
    (m.perform op).1.memory = m.memory := by
  rcases perform_cases m op with ⟨_, hs⟩ | ⟨_, value, hs⟩ | hs
  · rw [hs, memory_step h]
  · rw [hs]
    rfl
  · rw [hs]

/-- A memory that no instruction writes to stays the image it was. -/
theorem memory_performAll {image : Image} (h : image.ReadOnly) (ops : List Operation) :
    ((start image).performAll ops).memory = image :=
  performAll_induction (P := fun m => m.memory = image)
    (fun m op hm => by
      subst hm
      exact memory_perform h op) rfl ops

/-! ## Program counter -/

/-- At the last mailbox a fenced memory has no other instruction. -/
theorem halt_or_branch_of_decodesAt (h : m.memory.Fenced) (hd : m.DecodesAt 99 (some i)) :
    i = .halt ∨ ∃ b, i = .branch b := by
  obtain ⟨a, ha, hi⟩ := hd
  obtain ⟨k, hk, hends⟩ := h
  obtain rfl : a = 99 := Fin.ext ha
  obtain rfl := Option.some.inj (hi.symm.trans hk)
  exact hends

/-- An instruction stays, goes on to the next word, or branches to a mailbox. -/
theorem pc_execute (m : Machine) (i : Instruction) :
    (m.execute i).pc = m.pc ∨ (m.execute i).pc = m.pc + 1 ∨ (m.execute i).pc < 100 := by
  cases i with
  | halt | input | inputChar => exact Or.inl rfl
  | add | sub | store | load | output | outputChar => exact Or.inr (Or.inl rfl)
  | branch a => exact Or.inr (Or.inr a.isLt)
  | branchZero a =>
    by_cases hz : m.acc.val = 0
    · exact Or.inr (Or.inr (by simp [execute, hz]))
    · exact Or.inr (Or.inl (by simp [execute, hz]))
  | branchPositive a =>
    by_cases hp : 0 ≤ m.acc.val
    · exact Or.inr (Or.inr (by simp [execute, hp]))
    · exact Or.inr (Or.inl (by simp [execute, hp]))

theorem pc_lt_execute (h : m.memory.Fenced) (hd : m.DecodesAt m.pc (some i)) :
    (m.execute i).pc < 100 := by
  have hpc := hd.lt
  by_cases hlast : m.pc = 99
  · rw [hlast] at hd
    rcases halt_or_branch_of_decodesAt h hd with rfl | ⟨b, rfl⟩
    · exact hpc
    · exact b.isLt
  · rcases pc_execute m i with hs | hs | hs <;> omega

theorem pc_lt_step (h : m.memory.Fenced) (hpc : m.pc < 100) : m.step.pc < 100 := by
  by_cases hr : m.isReady
  · rcases step_cases hr with ⟨hge, _⟩ | ⟨_, hs⟩ | ⟨i, hd, hs⟩
    · omega
    · rwa [hs]
    · rw [hs]
      exact pc_lt_execute h hd
  · rwa [step_of_not_isReady (by simpa using hr)]

/-- A machine that waits does not stand at the last mailbox of a fenced memory. -/
theorem pc_ne_of_isAwaiting (hinv : m.Invariant) (h : m.memory.Fenced)
    (ha : m.status.isAwaiting) : m.pc ≠ 99 := by
  intro hlast
  have hfits := hinv.statusFits
  unfold StatusFits at hfits
  cases hs : m.status with
  | awaitingNumber =>
    rw [hs, hlast] at hfits
    rcases halt_or_branch_of_decodesAt h hfits with hi | ⟨b, hi⟩ <;> exact absurd hi (by simp)
  | awaitingChar =>
    rw [hs, hlast] at hfits
    rcases halt_or_branch_of_decodesAt h hfits with hi | ⟨b, hi⟩ <;> exact absurd hi (by simp)
  | _ => rw [hs] at ha; exact absurd ha (by decide)

theorem pc_lt_perform (hinv : m.Invariant) (h : m.memory.Fenced) (hpc : m.pc < 100)
    (op : Operation) : (m.perform op).1.pc < 100 := by
  rcases perform_cases m op with ⟨_, hs⟩ | ⟨ha, value, hs⟩ | hs
  · rw [hs]
    exact pc_lt_step h hpc
  · have hne := pc_ne_of_isAwaiting hinv h ha
    rw [hs]
    simp only [accept]
    omega
  · rwa [hs]

/-- The program counter never passes the fence of a memory that stays as it is. -/
theorem pc_lt_performAll {image : Image} (hro : image.ReadOnly) (hf : image.Fenced)
    (ops : List Operation) : ((start image).performAll ops).pc < 100 := by
  have hall : ((start image).performAll ops).Invariant ∧
      ((start image).performAll ops).memory = image ∧ ((start image).performAll ops).pc < 100 := by
    refine performAll_induction (P := fun m => m.Invariant ∧ m.memory = image ∧ m.pc < 100)
      ?_ ⟨invariant_start image, rfl, Nat.succ_pos 99⟩ ops
    rintro m op ⟨hinv, rfl, hpc⟩
    exact ⟨hinv.perform op, memory_perform hro op, pc_lt_perform hinv hf hpc op⟩
  exact hall.2.2

/-! ## Statuses -/

theorem status_ne_invalidInstruction {image : Image} (h : image.ReadOnly) (ops : List Operation) :
    ((start image).performAll ops).status ≠ .invalidInstruction := by
  intro hs
  have hfits := (invariant_performAll image ops).statusFits
  unfold StatusFits at hfits
  rw [hs] at hfits
  obtain ⟨a, _, hnone⟩ := hfits
  rw [memory_performAll h] at hnone
  obtain ⟨i, hi, _⟩ := h a
  exact absurd (hnone.symm.trans hi) (by simp)

theorem status_ne_endOfMemory {image : Image} (hro : image.ReadOnly) (hf : image.Fenced)
    (ops : List Operation) : ((start image).performAll ops).status ≠ .endOfMemory := by
  intro hs
  have hfits := (invariant_performAll image ops).statusFits
  unfold StatusFits at hfits
  rw [hs] at hfits
  have hpc := pc_lt_performAll hro hf ops
  omega

end Machine

/-! ## Programs without data and stores -/

namespace Statement

/-- A statement that is neither data nor a store. -/
def IsReadOnly (s : Statement) : Prop :=
  s.mnemonic ≠ .dat ∧ s.mnemonic ≠ .sto ∧ s.mnemonic ≠ .sta

theorem IsReadOnly.canonical_name_ne {s : Statement} (h : s.IsReadOnly) :
    s.mnemonic.canonical.name ≠ "STO" := by
  obtain ⟨_, hsto, hsta⟩ := h
  cases hm : s.mnemonic with
  | sto => exact absurd hm hsto
  | sta => exact absurd hm hsta
  | _ => decide

theorem IsReadOnly.decode?_of_means {ss : List Statement} {s : Statement} {w : Word}
    (h : s.IsReadOnly) (hmeans : Means ss s w) :
    ∃ i, Instruction.decode? w = some i ∧ ∀ b, i ≠ .store b := by
  have hstore : ∀ i : Instruction, i.name = s.mnemonic.canonical.name → ∀ b, i ≠ .store b := by
    rintro i hname b rfl
    exact h.canonical_name_ne hname.symm
  cases hmeans with
  | blank hm _ _ => exact absurd hm h.1
  | data hm _ _ => exact absurd hm h.1
  | plain _ _ hi hname _ => exact ⟨_, hi, hstore _ hname⟩
  | addressed _ _ hi hname _ _ => exact ⟨_, hi, hstore _ hname⟩

end Statement

namespace Image

open Statement

variable {image : Image} {ss : List Statement}

theorem decode?_zero : Instruction.decode? 0 = some .halt := by
  decide

theorem Holds.readOnly (h : image.Holds ss) (hss : ∀ s ∈ ss, s.IsReadOnly) : image.ReadOnly := by
  intro a
  by_cases ha : a.val < ss.length
  · obtain ⟨b, hb, hmeans⟩ := h.means a.val ss[a.val] (List.getElem?_eq_getElem ha)
    obtain rfl : b = a := Fin.ext hb
    exact (hss _ (List.getElem_mem ha)).decode?_of_means hmeans
  · rw [h.zero a (Nat.le_of_not_lt ha)]
    exact ⟨.halt, decode?_zero, by simp⟩

theorem Holds.fenced (h : image.Holds ss) (hlen : ss.length < 100) : image.Fenced := by
  refine ⟨.halt, ?_, Or.inl rfl⟩
  rw [h.zero 99 (Nat.le_of_lt_succ hlen)]
  exact decode?_zero

end Image

namespace Machine

/-- Whatever a host does, a machine whose words are instructions that do not store keeps its memory
and never meets an invalid instruction, and with a fence at the end it never runs out of memory.
Sources without data and stores have such words, and a fence too if they leave a mailbox free: then
the only end is to halt. -/
theorem readOnly_never_faults :
    (∀ image : Image, image.ReadOnly → ∀ ops : List Operation,
      let m := (start image).performAll ops
      m.memory = image ∧ m.status ≠ .invalidInstruction ∧
        (image.Fenced → m.status ≠ .endOfMemory)) ∧
      ∀ source p ss, Program.assemble source = .ok p → Statement.parse source = .ok ss →
        (∀ s ∈ ss, s.IsReadOnly) →
        p.image.ReadOnly ∧
          (ss.length < 100 → p.image.Fenced ∧
            ∀ ops : List Operation,
              let m := (start p.image).performAll ops
              m.status.isTerminal → m.status = .halted) := by
  refine ⟨fun image hro ops => ⟨memory_performAll hro ops, status_ne_invalidInstruction hro ops,
    fun hf => status_ne_endOfMemory hro hf ops⟩, ?_⟩
  intro source p ss hp hparse hss
  have hrepresents := Program.represents_of_assemble hparse hp
  have hro := hrepresents.holds.readOnly hss
  refine ⟨hro, fun hlen => ?_⟩
  have hf := hrepresents.holds.fenced hlen
  refine ⟨hf, fun ops hterminal => ?_⟩
  have hinvalid := status_ne_invalidInstruction hro ops
  have hend := status_ne_endOfMemory hro hf ops
  cases hs : ((start p.image).performAll ops).status with
  | halted => rfl
  | endOfMemory => exact absurd hs hend
  | invalidInstruction => exact absurd hs hinvalid
  | _ => rw [hs] at hterminal; exact absurd hterminal (by decide)

/-- A program that echoes numbers until it reads a zero, and then runs into the zeros behind it. -/
theorem readOnly_never_faults_echo :
    let image := Image.ofList [901, 704, 902, 600]
    image.ReadOnly ∧ image.Fenced ∧ ∀ ops : List Operation,
      let m := (start image).performAll ops
      m.memory = image ∧ m.status ≠ .invalidInstruction ∧ m.status ≠ .endOfMemory ∧
        (m.status.isTerminal → m.status = .halted) := by
  obtain ⟨hro, hfenced⟩ := readOnly_never_faults.2 "IN\nBRZ 4\nOUT\nBR 0"
    ⟨Image.ofList [901, 704, 902, 600], SymbolTable.empty, 4⟩
    [⟨none, .inp, ⟨0, 2⟩, none, 1, ⟨0, 2⟩⟩,
      ⟨none, .brz, ⟨3, 3⟩, some (.literal 4 ⟨7, 1⟩), 2, ⟨3, 5⟩⟩,
      ⟨none, .out, ⟨9, 3⟩, none, 3, ⟨9, 3⟩⟩,
      ⟨none, .br, ⟨13, 2⟩, some (.literal 0 ⟨16, 1⟩), 4, ⟨13, 4⟩⟩]
    (by decide +kernel) (by decide +kernel) (by simp [Statement.IsReadOnly])
  obtain ⟨hf, hends⟩ := hfenced (by decide)
  refine ⟨hro, hf, fun ops => ?_⟩
  obtain ⟨hmemory, hinvalid, hend⟩ := readOnly_never_faults.1 _ hro ops
  exact ⟨hmemory, hinvalid, hend hf, hends ops⟩

end Machine

end Mailbox
