import Mailbox.Proofs.Machine.Step
set_option autoImplicit false

/-!
# Operations that are ignored

A host may step a machine that waits or whose program is over, and it may offer input that the
machine is not waiting for.  The machine answers with its status and ignores the operation
otherwise.  Main statement: ignored operations can be left out of any sequence.  The machine comes
to the same state without them, and each of the others meets the same machine and gets the same
response.

Normative source: SPEC_FULL.md, sections 4.4 (terminal states) and 6 (when input is legal).
-/

namespace Mailbox

namespace Status

/-- A machine with this status ignores an operation: a step when the program is over or a value is
awaited, and input of any other kind than the awaited one. -/
def ignores (status : Status) : Operation → Bool
  | .step => status.isTerminal || status.isAwaiting
  | .number _ => status != .awaitingNumber
  | .char _ => status != .awaitingChar

/-- The response to an operation that is ignored. -/
def reply (status : Status) : Operation → Response
  | .step => .status status
  | .number _ | .char _ => .refused ⟨status⟩

theorem ignores_of_isTerminal {status : Status} (h : status.isTerminal) (op : Operation) :
    status.ignores op := by
  cases op <;> cases status <;> first | rfl | exact absurd h (by decide)

end Status

/-- An operation in a sequence: the machine that it meets, and the response that it gets. -/
structure Exchange where
  before : Machine
  operation : Operation
  response : Response
  deriving DecidableEq, Repr

/-- The machine ignores the operation. -/
def Exchange.isIgnored (x : Exchange) : Bool :=
  x.before.status.ignores x.operation

namespace Machine

/-- A sequence of operations as exchanges. -/
def exchanges (m : Machine) : List Operation → List Exchange
  | [] => []
  | op :: ops => ⟨m, op, (m.perform op).2⟩ :: (m.perform op).1.exchanges ops

/-- The exchanges in which the machine does not ignore the operation. -/
def heededExchanges (m : Machine) (ops : List Operation) : List Exchange :=
  (m.exchanges ops).filter (!·.isIgnored)

/-! ## One operation -/

variable {m : Machine}

theorem perform_of_ignores {op : Operation} (h : m.status.ignores op) :
    m.perform op = (m, m.status.reply op) := by
  cases op with
  | step =>
    have hstep : m.step = m := by
      rcases Bool.or_eq_true_iff.1 h with hterminal | hawaiting
      · exact step_of_isTerminal hterminal
      · exact step_of_isAwaiting hawaiting
    rw [perform, hstep]
    rfl
  | number value =>
    have hstatus : m.status ≠ .awaitingNumber := bne_iff_ne.1 h
    simp only [perform, inputNumber, if_neg hstatus, Status.reply]
  | char code =>
    have hstatus : m.status ≠ .awaitingChar := bne_iff_ne.1 h
    simp only [perform, inputChar, if_neg hstatus, Status.reply]

/-- Input that is not ignored is accepted. -/
theorem response_of_not_ignores {op : Operation} (hop : op ≠ .step)
    (h : m.status.ignores op = false) : (m.perform op).2 = .accepted := by
  cases op with
  | step => exact absurd rfl hop
  | number value =>
    have hstatus : m.status = .awaitingNumber := bne_eq_false_iff_eq.1 h
    simp only [perform, inputNumber, if_pos hstatus]
  | char code =>
    have hstatus : m.status = .awaitingChar := bne_eq_false_iff_eq.1 h
    simp only [perform, inputChar, if_pos hstatus]

/-! ## Sequences of operations -/

theorem heededExchanges_cons_of_ignores {op : Operation} (h : m.status.ignores op)
    (ops : List Operation) : m.heededExchanges (op :: ops) = m.heededExchanges ops := by
  have hignored : Exchange.isIgnored ⟨m, op, (m.perform op).2⟩ = true := h
  rw [heededExchanges, exchanges, List.filter_cons_of_neg (by simp [hignored]),
    perform_of_ignores h]
  rfl

theorem heededExchanges_cons_of_not_ignores {op : Operation} (h : m.status.ignores op = false)
    (ops : List Operation) :
    m.heededExchanges (op :: ops) =
      ⟨m, op, (m.perform op).2⟩ :: (m.perform op).1.heededExchanges ops := by
  have hheeded : Exchange.isIgnored ⟨m, op, (m.perform op).2⟩ = false := h
  rw [heededExchanges, exchanges, List.filter_cons_of_pos (by simp [hheeded])]
  rfl

/-- Without the ignored operations the machine comes to the same state. -/
theorem performAll_heeded (m : Machine) (ops : List Operation) :
    m.performAll ((m.heededExchanges ops).map Exchange.operation) = m.performAll ops := by
  induction ops generalizing m with
  | nil => rfl
  | cons op ops ih =>
    cases h : m.status.ignores op with
    | true =>
      rw [heededExchanges_cons_of_ignores h, ih, performAll_cons, perform_of_ignores h]
    | false =>
      rw [heededExchanges_cons_of_not_ignores h, List.map_cons, performAll_cons, ih,
        performAll_cons]

/-- Without the ignored operations the other exchanges are the same. -/
theorem exchanges_heeded (m : Machine) (ops : List Operation) :
    m.exchanges ((m.heededExchanges ops).map Exchange.operation) = m.heededExchanges ops := by
  induction ops generalizing m with
  | nil => rfl
  | cons op ops ih =>
    cases h : m.status.ignores op with
    | true => rw [heededExchanges_cons_of_ignores h, ih]
    | false => rw [heededExchanges_cons_of_not_ignores h, List.map_cons, exchanges, ih]

/-- A machine whose program is over ignores everything. -/
theorem performAll_of_isTerminal (h : m.status.isTerminal) (ops : List Operation) :
    m.performAll ops = m := by
  induction ops with
  | nil => rfl
  | cons op ops ih =>
    rw [performAll_cons, perform_of_ignores (Status.ignores_of_isTerminal h op), ih]

/-- After any sequence of operations on a fresh machine, an operation that the machine ignores
changes nothing and gets the status for an answer, and input that it does not ignore is accepted.
The ignored operations of the sequence can be left out: the final state, and what each of the other
operations meets and gets in response, stay the same.  A machine whose program is over stays as it
is whatever is done to it. -/
theorem ignored_operations_can_be_erased (image : Image) (ops : List Operation) :
    let fresh := start image
    let m := fresh.performAll ops
    let heeded := fresh.heededExchanges ops
    (∀ op, m.status.ignores op → m.perform op = (m, m.status.reply op)) ∧
      (∀ op, op ≠ .step → m.status.ignores op = false → (m.perform op).2 = .accepted) ∧
      fresh.performAll (heeded.map Exchange.operation) = m ∧
      fresh.exchanges (heeded.map Exchange.operation) = heeded ∧
      (m.status.isTerminal → ∀ more, m.performAll more = m) := by
  intro fresh m heeded
  exact ⟨fun op => perform_of_ignores, fun op => response_of_not_ignores,
    performAll_heeded fresh ops, exchanges_heeded fresh ops, performAll_of_isTerminal⟩

end Machine

end Mailbox
