import Mailbox.Machine.Operation
import Mailbox.Session.Input
set_option autoImplicit false

/-!
# Executions and their texts

What a host that attends to a machine does and writes, said without a session.  The host makes one
step after the other, and when a step asks for a value it takes the next one that waits and gives it
to the machine, if the value is of the kind asked for.  An execution is the list of these turns; its
events are what the steps put out, the statuses that concern the host, and the values given; and its
text is one item for each event, in order.
-/

namespace Mailbox

/-! ## Turns -/

/-- What a host does from one step to the next. -/
inductive Turn where
  /-- A step only. -/
  | quiet
  /-- A step that asks for a number, and the number. -/
  | number (value : Word)
  /-- A step that asks for a character, and the character. -/
  | char (c : Char)
  deriving DecidableEq, Repr

namespace Turn

/-- The operations of a turn. -/
def operations : Turn → List Operation
  | .quiet => [.step]
  | .number value => [.step, .number value]
  | .char c => [.step, .char c.val]

/-- The turn of a step that asks for a number. -/
def ofNumber : Except InputFault Word → Turn
  | .ok value => .number value
  | .error _ => .quiet

/-- The turn of a step that asks for a character. -/
def ofCharacter : Except InputFault Char → Turn
  | .ok c => .char c
  | .error _ => .quiet

/-- The turn of a step with a given status, and the values that wait afterwards.  A status that asks
for a value uses up the first one, whether it can be given or not. -/
def choose (status : Status) : List Supply → Turn × List Supply
  | [] => (.quiet, [])
  | supply :: rest =>
    match status with
    | .awaitingNumber => (.ofNumber (Input.number supply), rest)
    | .awaitingChar => (.ofCharacter (Input.character supply), rest)
    | _ => (.quiet, supply :: rest)

/-- A number is chosen the way it is read. -/
theorem choose_number (input : Input) :
    choose .awaitingNumber input.waiting =
      (.ofNumber input.readNumber.1, input.readNumber.2.waiting) := by
  obtain ⟨waiting⟩ := input
  cases waiting <;> rfl

/-- A character is chosen the way it is read. -/
theorem choose_char (input : Input) :
    choose .awaitingChar input.waiting =
      (.ofCharacter input.readChar.1, input.readChar.2.waiting) := by
  obtain ⟨waiting⟩ := input
  cases waiting <;> rfl

theorem choose_of_not_isAwaiting {status : Status} (h : status.isAwaiting = false)
    (waiting : List Supply) : choose status waiting = (.quiet, waiting) := by
  cases waiting with
  | nil => rfl
  | cons supply rest => cases status <;> first | rfl | exact absurd h (by decide)

end Turn

/-! ## Events -/

/-- Something that happens in an execution and that a text may tell of. -/
inductive Event where
  /-- A number is put out. -/
  | number (value : Word)
  /-- A character is put out, by its code. -/
  | char (code : Word)
  /-- A step returns a status that asks for a value or ends the program. -/
  | reported (status : Status)
  /-- The machine accepts a value. -/
  | accepted (value : String)
  deriving DecidableEq, Repr

/-- The character with a code, and the replacement character for a word that is no code of a
character. -/
def Word.glyph (w : Word) : Char :=
  if 0 ≤ w.val ∧ w.val.toNat.isValidChar then Char.ofNat w.val.toNat else '\uFFFD'

theorem Word.glyph_ofCode_val (c : Char) : (ofCode c.val).glyph = c := by
  have hv : (ofCode c.val).val.toNat.isValidChar := c.valid
  unfold glyph
  rw [if_pos ⟨by simp, hv⟩]
  exact Char.ofNat_toNat c

namespace Machine

/-- What the last step of a machine has to tell. -/
def report (m : Machine) : List Event :=
  match m.status with
  | .running => []
  | .producedNumber => [.number m.acc]
  | .producedChar => [.char m.acc]
  | .awaitingNumber | .awaitingChar => [.reported m.status]
  | .halted | .endOfMemory | .invalidInstruction => [.reported m.status]

/-- The events of an operation. -/
def eventsOf (m : Machine) : Operation → List Event
  | .step => m.step.report
  | .number value => if m.status = .awaitingNumber then [.accepted (toString value.val)] else []
  | .char code =>
    if m.status = .awaitingChar then
      [.accepted (String.singleton (Word.ofCode code).glyph)]
    else []

/-- The events of operations, in order. -/
def events (m : Machine) : List Operation → List Event
  | [] => []
  | op :: ops => m.eventsOf op ++ (m.perform op).1.events ops

@[simp] theorem events_nil (m : Machine) : m.events [] = [] := rfl

@[simp] theorem events_cons (m : Machine) (op : Operation) (ops : List Operation) :
    m.events (op :: ops) = m.eventsOf op ++ (m.perform op).1.events ops := rfl

theorem events_append (m : Machine) (ops more : List Operation) :
    m.events (ops ++ more) = m.events ops ++ (m.performAll ops).events more := by
  induction ops generalizing m with
  | nil => rfl
  | cons op ops ih => simp [ih]

/-! ## Machines after turns -/

section Turn

variable {m : Machine}

theorem report_of_isAwaiting (h : m.status.isAwaiting) : m.report = [.reported m.status] := by
  unfold report
  cases hs : m.status <;> first | rfl | (rw [hs] at h; exact absurd h (by decide))

theorem events_quiet (m : Machine) : m.events Turn.quiet.operations = m.step.report :=
  List.append_nil _

theorem performAll_number (h : m.step.status = .awaitingNumber) (value : Word) :
    m.performAll (Turn.number value).operations = m.step.accept value := by
  simp [Turn.operations, perform, inputNumber, h]

theorem events_number (h : m.step.status = .awaitingNumber) (value : Word) :
    m.events (Turn.number value).operations =
      [.reported m.step.status, .accepted (toString value.val)] := by
  have hreport := report_of_isAwaiting (m := m.step) (by rw [h]; rfl)
  simp [Turn.operations, perform, eventsOf, h, hreport]

theorem performAll_char (h : m.step.status = .awaitingChar) (c : Char) :
    m.performAll (Turn.char c).operations = m.step.accept (.ofCode c.val) := by
  simp [Turn.operations, perform, inputChar, h]

theorem events_char (h : m.step.status = .awaitingChar) (c : Char) :
    m.events (Turn.char c).operations =
      [.reported m.step.status, .accepted (String.singleton c)] := by
  have hreport := report_of_isAwaiting (m := m.step) (by rw [h]; rfl)
  simp [Turn.operations, perform, eventsOf, h, hreport, Word.glyph_ofCode_val]

end Turn

end Machine

/-! ## Executions -/

/-- The turns of a host so far, and the values that it has left. -/
structure Execution where
  turns : List Turn
  waiting : List Supply
  deriving DecidableEq, Repr

namespace Execution

/-- The operations of all turns. -/
def operations (e : Execution) : List Operation :=
  e.turns.flatMap Turn.operations

/-- The machine that an execution reaches. -/
def machine (image : Image) (e : Execution) : Machine :=
  (Machine.start image).performAll e.operations

/-- The events of an execution. -/
def events (image : Image) (e : Execution) : List Event :=
  (Machine.start image).events e.operations

/-- The turn that comes next, and the values that wait afterwards. -/
def upcoming (image : Image) (e : Execution) : Turn × List Supply :=
  Turn.choose (e.machine image).step.status e.waiting

/-- The execution after one more turn. -/
def next (image : Image) (e : Execution) : Execution :=
  ⟨e.turns ++ [(e.upcoming image).1], (e.upcoming image).2⟩

/-- The execution after a number of steps. -/
def after (image : Image) (waiting : List Supply) : (steps : Nat) → Execution
  | 0 => ⟨[], waiting⟩
  | steps + 1 => (after image waiting steps).next image

theorem operations_next (image : Image) (e : Execution) :
    (e.next image).operations = e.operations ++ (e.upcoming image).1.operations := by
  simp [operations, next]

theorem machine_next (image : Image) (e : Execution) :
    (e.next image).machine image =
      (e.machine image).performAll (e.upcoming image).1.operations := by
  rw [machine, operations_next, Machine.performAll_append]
  rfl

theorem events_next (image : Image) (e : Execution) :
    (e.next image).events image =
      e.events image ++ (e.machine image).events (e.upcoming image).1.operations := by
  rw [events, operations_next, Machine.events_append]
  rfl

/-- A turn has one step. -/
theorem count_step_after (image : Image) (waiting : List Supply) (steps : Nat) :
    (after image waiting steps).operations.count .step = steps := by
  induction steps with
  | zero => rfl
  | succ steps ih =>
    rw [after, operations_next, List.count_append, ih]
    cases ((after image waiting steps).upcoming image).1 <;> rfl

end Execution

/-! ## Texts -/

namespace Event

/-- A text ends with a line that is not closed. -/
def isOpen (text : String) : Bool :=
  text.toList.getLast?.any (· != '\n')

/-- A text with its last line closed. -/
def closed (text : String) : String :=
  if isOpen text then text.push '\n' else text

/-- A text with one more line. -/
def addLine (text line : String) : String :=
  closed text ++ line ++ "\n"

/-- The words of the banner of a status, in twelve columns at least. -/
def bannerWords? : Status → Option String
  | .halted => some "      Halted"
  | .awaitingNumber => some "Awaiting input"
  | .awaitingChar => some "Awaiting char input"
  | .endOfMemory => some "Reached end of memory"
  | .invalidInstruction => some "Reached an invalid instruction"
  | .running | .producedNumber | .producedChar => none

/-- The banner of a status: cyan, or red if the program went wrong. -/
def banner? (colored : Bool) (status : Status) : Option String :=
  (bannerWords? status).map fun words =>
    if colored then (if status.isFault then "\x1b[31m" else "\x1b[36m") ++ words ++ "\x1b[0m"
    else words

/-- A text with an event at its end.  Everything but a character put out has a line of its own. -/
def write (minimal colored : Bool) (text : String) : Event → String
  | .number value => addLine text (toString value.val)
  | .char code => text.push code.glyph
  | .reported status =>
    if minimal then text else (banner? colored status).elim text (addLine text)
  | .accepted value => if minimal then text else addLine text ("> " ++ value)

/-- The text of events, in order. -/
def render (minimal colored : Bool) (events : List Event) : String :=
  events.foldl (write minimal colored) ""

@[simp] theorem isOpen_push (text : String) (c : Char) : isOpen (text.push c) = (c != '\n') := by
  simp [isOpen]

theorem render_append (minimal colored : Bool) (events more : List Event) :
    render minimal colored (events ++ more) =
      more.foldl (write minimal colored) (render minimal colored events) := by
  simp [render]

end Event

end Mailbox
