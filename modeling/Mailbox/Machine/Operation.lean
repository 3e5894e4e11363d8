import Mailbox.Machine.Basic
set_option autoImplicit false

/-!
# Operations on a machine

What a host may do to a machine, one thing after another, and how the machine responds.

Normative source: SPEC_FULL.md, sections 5, 6 and A6.3.
-/

namespace Mailbox

/-- A thing that a host does to a machine. -/
inductive Operation where
  | step
  | number (value : Word)
  | char (code : UInt32)
  deriving DecidableEq, Repr

/-- How a machine responds to an operation. -/
inductive Response where
  | status (status : Status)
  | accepted
  | refused (cause : Machine.RefusedInput)
  deriving DecidableEq, Repr

namespace Machine

/-- The machine after an operation, with its response.  Refused input changes nothing. -/
def perform (m : Machine) : Operation → Machine × Response
  | .step => (m.step, .status m.step.status)
  | .number value =>
    match m.inputNumber value with
    | .ok next => (next, .accepted)
    | .error cause => (m, .refused cause)
  | .char code =>
    match m.inputChar code with
    | .ok next => (next, .accepted)
    | .error cause => (m, .refused cause)

/-- The machine after a sequence of operations. -/
def performAll (m : Machine) (ops : List Operation) : Machine :=
  ops.foldl (fun m op => (m.perform op).1) m

/-- Steps until the status is other than running, `limit` times at most.  The number of steps made
is added to `count`. -/
def stepWhileRunning (m : Machine) (count : Nat) : (limit : Nat) → Machine × Nat
  | 0 => (m, count)
  | limit + 1 =>
    let next := m.step
    if next.status = .running then next.stepWhileRunning (count + 1) limit else (next, count + 1)

@[simp] theorem performAll_nil (m : Machine) : m.performAll [] = m := rfl

@[simp] theorem performAll_cons (m : Machine) (op : Operation) (ops : List Operation) :
    m.performAll (op :: ops) = (m.perform op).1.performAll ops := rfl

theorem performAll_append (m : Machine) (ops more : List Operation) :
    m.performAll (ops ++ more) = (m.performAll ops).performAll more := by
  simp [performAll]

end Machine

end Mailbox
