import Mailbox.Proofs.Machine.Ignored
import Mailbox.Proofs.Machine.Invariant
import Mailbox.Proofs.Machine.Writes
set_option autoImplicit false

/-!
# Programs that branch forward

A program can run for ever only by branching back.  Main statement: if each branch that is taken
goes to a mailbox behind its own, the steps that the machine really makes are made at mailboxes that
follow one another, so there are 101 of them at most, and the 101st ends the program.  It does not
matter whether the program rewrites itself, or when its values come.
-/

namespace Mailbox

namespace Instruction

/-- Where an instruction sends the program counter, if it branches. -/
def target? (acc : Word) : Instruction → Option Address
  | .branch a => some a
  | .branchZero a => if acc.val = 0 then some a else none
  | .branchPositive a => if 0 ≤ acc.val then some a else none
  | .add _ | .sub _ | .store _ | .load _ => none
  | .halt | .input | .output | .inputChar | .outputChar => none

theorem target?_eq_some_iff {acc : Word} {i : Instruction} {a : Address} :
    i.target? acc = some a ↔ i.JumpsTo acc a := by
  constructor
  · intro h
    cases i with
    | branch b =>
      cases h
      exact .branch a
    | branchZero b =>
      obtain ⟨hzero, hb⟩ := Option.ite_none_right_eq_some.1 h
      cases hb
      exact .branchZero hzero
    | branchPositive b =>
      obtain ⟨hpositive, hb⟩ := Option.ite_none_right_eq_some.1 h
      cases hb
      exact .branchPositive hpositive
    | _ => cases h
  · intro h
    cases h with
    | branch => rfl
    | branchZero hzero => exact if_pos hzero
    | branchPositive hpositive => exact if_pos hpositive

end Instruction

namespace Exchange

/-- The operation is a step that the machine makes: the program is not over, and no value is
awaited. -/
def IsEffective (x : Exchange) : Prop :=
  x.operation = .step ∧ x.before.isReady

instance (x : Exchange) : Decidable x.IsEffective :=
  inferInstanceAs (Decidable (_ ∧ _))

/-- If the operation is a step that takes a branch, the branch goes to a mailbox behind its own. -/
def BranchesForward (x : Exchange) : Prop :=
  x.operation = .step → ∀ i a, x.before.current? = some i → i.JumpsTo x.before.acc a →
    x.before.pc < a.val

theorem branchesForward_iff (x : Exchange) :
    x.BranchesForward ↔ (x.operation = .step →
      ∀ a ∈ x.before.current?.bind (Instruction.target? x.before.acc), x.before.pc < a.val) := by
  refine imp_congr_right fun _ => ⟨fun h a ha => ?_, fun h i a hi ha => ?_⟩
  · obtain ⟨i, hi, htarget⟩ := Option.bind_eq_some_iff.1 ha
    exact h i a hi (Instruction.target?_eq_some_iff.1 htarget)
  · exact h a (Option.bind_eq_some_iff.2 ⟨i, hi, Instruction.target?_eq_some_iff.2 ha⟩)

instance (x : Exchange) : Decidable x.BranchesForward :=
  decidable_of_iff' _ x.branchesForward_iff

end Exchange

namespace Machine

/-- The program counters at which the effective steps of a sequence of operations are made, in
order. -/
def places (m : Machine) (ops : List Operation) : List Nat :=
  ((m.exchanges ops).filter (·.IsEffective)).map (·.before.pc)

/-- How many places are done with, of the mailboxes and the place behind them: an awaited value
moves the machine past its place, and a program that is over has no place left. -/
def passed (m : Machine) : Nat :=
  if m.status.isTerminal then 101 else if m.status.isAwaiting then m.pc + 1 else m.pc

variable {m : Machine} {op : Operation} {ops : List Operation}

/-! ## Places that are done with -/

theorem passed_of_isTerminal (h : m.status.isTerminal) : m.passed = 101 :=
  if_pos h

theorem passed_of_isAwaiting (h : m.status.isAwaiting) : m.passed = m.pc + 1 := by
  have hover : ¬ m.status.isTerminal := fun hterminal =>
    Bool.eq_false_iff.1 (Status.isAwaiting_of_isTerminal hterminal) h
  rw [passed, if_neg hover, if_pos h]

theorem passed_of_isReady (h : m.isReady) : m.passed = m.pc := by
  obtain ⟨hover, hidle⟩ := isReady_iff.1 h
  rw [passed, hover, hidle]
  rfl

/-- As long as the program is not over, a place is left. -/
theorem Invariant.passed_le (h : m.Invariant) (hover : m.status.isTerminal = false) :
    m.passed ≤ 100 := by
  cases hr : m.isReady with
  | true =>
    rw [passed_of_isReady hr]
    exact h.pc_le
  | false =>
    rcases (isReady_eq_false_iff m).1 hr with hterminal | ha
    · rw [hover] at hterminal
      cases hterminal
    · rw [passed_of_isAwaiting ha]
      exact h.pc_lt_of_isAwaiting ha

/-! ## One operation -/

/-- An effective step is done with its place. -/
theorem Invariant.pc_lt_passed_step (h : m.Invariant)
    (hforward : ∀ i a, m.current? = some i → i.JumpsTo m.acc a → m.pc < a.val) :
    m.pc < m.step.passed := by
  rcases step_leaves m with ⟨hterminal | ha, hstep⟩ | ⟨hr, i, hi, hpc⟩
  · rw [passed_of_isTerminal hterminal]
    exact Nat.lt_succ_of_le h.pc_le
  · have hsame : m.step.pc = m.pc := by rw [hstep]
    rw [passed_of_isAwaiting ha, hsame]
    exact Nat.lt_succ_self m.pc
  · rw [passed_of_isReady hr]
    rcases hpc with ⟨a, hjump, ha⟩ | ⟨_, hnext⟩
    · rw [ha]
      exact hforward i a hi hjump
    · rw [hnext]
      exact Nat.lt_succ_self m.pc

/-- Any other operation leaves the places as they are; an accepted value moves the machine to the
next one. -/
theorem passed_perform_of_not_isEffective (h : ¬ (op = .step ∧ m.isReady)) :
    (m.perform op).1.passed = m.passed := by
  rcases perform_cases m op with ⟨rfl, hs⟩ | ⟨ha, value, hs⟩ | hs
  · have hr : m.isReady = false := Bool.eq_false_iff.2 fun hr => h ⟨rfl, hr⟩
    rw [hs, step_of_not_isReady hr]
  · rw [hs, passed_of_isAwaiting ha]
    rfl
  · rw [hs]

/-! ## Sequences of operations -/

theorem places_cons_of_isEffective (hr : m.isReady) :
    m.places (.step :: ops) = m.pc :: m.step.places ops := by
  have heffective : Exchange.IsEffective ⟨m, .step, (m.perform .step).2⟩ := ⟨rfl, hr⟩
  rw [places, exchanges, List.filter_cons_of_pos (by simpa using heffective)]
  rfl

theorem places_cons_of_not_isEffective (h : ¬ (op = .step ∧ m.isReady)) :
    m.places (op :: ops) = (m.perform op).1.places ops := by
  have hidle : ¬ Exchange.IsEffective ⟨m, op, (m.perform op).2⟩ := h
  rw [places, exchanges, List.filter_cons_of_neg (by simpa using hidle)]
  rfl

/-- The places of effective steps follow one another, none of them was done with before, and each
of them is done with afterwards. -/
theorem Invariant.places_ascend (h : m.Invariant)
    (hforward : ∀ x ∈ m.exchanges ops, x.BranchesForward) :
    (m.places ops).Pairwise (· < ·) ∧ (∀ p ∈ m.places ops, m.passed ≤ p) ∧
      m.passed + (m.places ops).length ≤ (m.performAll ops).passed := by
  induction ops generalizing m with
  | nil => exact ⟨.nil, by simp [places, exchanges], Nat.le_refl _⟩
  | cons op ops ih =>
    obtain ⟨hfirst, hrest⟩ := List.forall_mem_cons.1 hforward
    obtain ⟨hascend, hleft, hcount⟩ := ih (h.perform op) hrest
    by_cases heffective : op = .step ∧ m.isReady
    · obtain ⟨rfl, hr⟩ := heffective
      have hlt : m.pc < m.step.passed := h.pc_lt_passed_step (hfirst rfl)
      rw [places_cons_of_isEffective hr, passed_of_isReady hr, performAll_cons]
      refine ⟨.cons (fun p hp => Nat.lt_of_lt_of_le hlt (hleft p hp)) hascend, ?_, ?_⟩
      · exact List.forall_mem_cons.2 ⟨Nat.le_refl _, fun p hp =>
          Nat.le_of_lt (Nat.lt_of_lt_of_le hlt (hleft p hp))⟩
      · calc m.pc + (m.step.places ops).length.succ
            ≤ m.step.passed + (m.step.places ops).length := by omega
          _ ≤ (m.step.performAll ops).passed := hcount
    · have hsame := passed_perform_of_not_isEffective heffective
      rw [places_cons_of_not_isEffective heffective, performAll_cons, ← hsame]
      exact ⟨hascend, hleft, hcount⟩

/-- If each branch that a fresh machine takes in a sequence of operations goes forward, its
effective steps are made at mailboxes that follow one another, there are 101 of them at most, and
after 101 of them the program is over. -/
theorem forward_branches_end (image : Image) (ops : List Operation)
    (hforward : ∀ x ∈ (start image).exchanges ops, x.BranchesForward) :
    let m := (start image).performAll ops
    let places := (start image).places ops
    places.Pairwise (· < ·) ∧ places.length ≤ 101 ∧
      (places.length = 101 → m.status.isTerminal) := by
  intro m places
  obtain ⟨hascend, _, hcount⟩ := (invariant_start image).places_ascend hforward
  have hinvariant : m.Invariant := invariant_performAll image ops
  have hcount : places.length ≤ m.passed := Nat.le_trans (Nat.le_add_left _ _) hcount
  cases hover : m.status.isTerminal with
  | true =>
    rw [passed_of_isTerminal hover] at hcount
    exact ⟨hascend, hcount, fun _ => rfl⟩
  | false =>
    have hle : places.length ≤ 100 := Nat.le_trans hcount (hinvariant.passed_le hover)
    exact ⟨hascend, Nat.le_succ_of_le hle, fun hall => absurd hle (by omega)⟩

/-- A program of 100 instructions that overwrites the branch back at its end before it gets there:
all 101 steps are made. -/
theorem forward_branches_end_rewritten :
    let image := Image.ofList ([901, 399] ++ List.replicate 97 500 ++ [600])
    let ops := [.step, .number 500] ++ List.replicate 100 Operation.step
    (∀ x ∈ (start image).exchanges ops, x.BranchesForward) ∧
      (start image).places ops = List.range 101 ∧
      ((start image).places ops).Pairwise (· < ·) ∧
      ((start image).performAll ops).status.isTerminal := by
  intro image ops
  have hforward : ∀ x ∈ (start image).exchanges ops, x.BranchesForward := by decide +kernel
  have hplaces : (start image).places ops = List.range 101 := by decide +kernel
  obtain ⟨hascend, _, hover⟩ := forward_branches_end image ops hforward
  exact ⟨hforward, hplaces, hascend, hover (by rw [hplaces, List.length_range])⟩

end Machine

end Mailbox
