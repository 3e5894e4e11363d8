import Mailbox.Machine.Operation
set_option autoImplicit false

/-!
# What an operation can do

Every proof about runs starts from the two case distinctions of this module: what a step comes to,
and what an operation comes to.  `performAll_induction` carries a property from one operation to
all of them.
-/

namespace Mailbox.Machine

/-! ## Fetching -/

/-- Mailbox `n` exists, and its word stands for the given instruction or for none. -/
def DecodesAt (m : Machine) (n : Nat) (i : Option Instruction) : Prop :=
  ∃ a : Address, a.val = n ∧ Instruction.decode? (m.memory.read a) = i

theorem DecodesAt.lt {m : Machine} {n : Nat} {i : Option Instruction} (h : m.DecodesAt n i) :
    n < 100 := by
  obtain ⟨a, rfl, _⟩ := h
  exact a.isLt

theorem fetch?_eq_none_iff (m : Machine) : m.fetch? = none ↔ 100 ≤ m.pc := by
  unfold fetch? Image.get?
  split
  · rename_i h
    exact ⟨fun hn => absurd hn (by simp), fun hn => absurd h (by omega)⟩
  · rename_i h
    exact ⟨fun _ => by omega, fun _ => rfl⟩

theorem decodesAt_of_fetch? {m : Machine} {w : Word} (h : m.fetch? = some w) :
    m.DecodesAt m.pc (Instruction.decode? w) := by
  unfold fetch? Image.get? at h
  split at h
  · rename_i hpc
    exact ⟨⟨m.pc, hpc⟩, rfl, by rw [Option.some.inj h]⟩
  · exact absurd h (by simp)

/-! ## Steps -/

/-- A step of a ready machine meets the end of memory, a word that is no instruction, or an
instruction, which it executes. -/
theorem step_cases {m : Machine} (h : m.isReady) :
    (100 ≤ m.pc ∧ m.step = { m with status := .endOfMemory }) ∨
      (m.DecodesAt m.pc none ∧ m.step = { m with status := .invalidInstruction }) ∨
      ∃ i, m.DecodesAt m.pc (some i) ∧ m.step = m.execute i := by
  unfold step
  rw [if_pos h]
  cases hw : m.fetch? with
  | none => exact Or.inl ⟨(fetch?_eq_none_iff m).1 hw, rfl⟩
  | some w =>
    have hd := decodesAt_of_fetch? hw
    cases hi : Instruction.decode? w with
    | none =>
      rw [hi] at hd
      exact Or.inr (Or.inl ⟨hd, by simp [hi]⟩)
    | some i =>
      rw [hi] at hd
      exact Or.inr (Or.inr ⟨i, hd, by simp [hi]⟩)

/-! ## Operations -/

/-- An operation makes a step, completes an input instruction, or changes nothing. -/
theorem perform_cases (m : Machine) (op : Operation) :
    (op = .step ∧ (m.perform op).1 = m.step) ∨
      (m.status.isAwaiting ∧ ∃ value, (m.perform op).1 = m.accept value) ∨
      (m.perform op).1 = m := by
  cases op with
  | step => exact Or.inl ⟨rfl, rfl⟩
  | number value =>
    by_cases h : m.status = .awaitingNumber
    · exact Or.inr (Or.inl ⟨by rw [h]; rfl, value, by simp [perform, inputNumber, h]⟩)
    · exact Or.inr (Or.inr (by simp [perform, inputNumber, h]))
  | char code =>
    by_cases h : m.status = .awaitingChar
    · exact Or.inr (Or.inl ⟨by rw [h]; rfl, .ofCode code, by simp [perform, inputChar, h]⟩)
    · exact Or.inr (Or.inr (by simp [perform, inputChar, h]))

/-- What holds of a machine and is kept by every operation holds after any of them. -/
theorem performAll_induction {P : Machine → Prop} (keep : ∀ m op, P m → P (m.perform op).1)
    {m : Machine} (h : P m) (ops : List Operation) : P (m.performAll ops) := by
  induction ops generalizing m with
  | nil => exact h
  | cons op ops ih =>
    rw [performAll_cons]
    exact ih (keep m op h)

end Mailbox.Machine
