import Mailbox.Proofs.Session.Refinement
import Mailbox.Proofs.Session.Limit
set_option autoImplicit false

/-!
# Tracing

A trace is a record that a session keeps beside its run: nothing in the run depends on it.  Main
statements: a session that keeps a trace goes the same way as one that does not, and its trace has
one record for each step of the execution, taken from the machine before the step and after it.

Normative source: SPEC_FULL.md, section A3 (the trace).
-/

namespace Mailbox

/-! ## Lines -/

/-- The word at the program counter, in three places at least. -/
def Machine.shownWord (m : Machine) : String :=
  if h : m.pc < 100 then Text.zeroPad 3 (m.memory.read ⟨m.pc, h⟩).val else "---"

/-- The text of the instruction that the word at the program counter stands for. -/
def Machine.shownInstruction (m : Machine) : String :=
  if h : m.pc < 100 then
    ((Instruction.decode? (m.memory.read ⟨m.pc, h⟩)).map Instruction.text).getD "???"
  else "???"

/-- What a trace says of the next step of a machine: its program counter, the word there and the
instruction this stands for, all before the step, and the accumulator and the status after it. -/
def Machine.traceLine (m : Machine) : String :=
  let pc := Text.zeroPad 2 m.pc
  let acc := toString m.step.acc.val
  s!"[pc={pc} acc={acc}] {m.shownWord} {m.shownInstruction} -> status {m.step.status.code}"

namespace TraceEntry

theorem wordText_ofStep (m : Machine) : (ofStep m).wordText = m.shownWord := by
  unfold wordText ofStep Machine.shownWord Machine.fetch? Image.get?
  by_cases h : m.pc < 100 <;> simp only [h, dif_pos, dif_neg, not_false_eq_true]

theorem instructionText_ofStep (m : Machine) : (ofStep m).instructionText = m.shownInstruction := by
  unfold instructionText ofStep Machine.shownInstruction Machine.fetch? Image.get?
  by_cases h : m.pc < 100
  · simp only [h, dif_pos, Option.bind_some]
    cases Instruction.decode? (m.memory.read ⟨m.pc, h⟩) <;> rfl
  · simp only [h, dif_neg, not_false_eq_true, Option.bind_none]

theorem line_ofStep (m : Machine) : (ofStep m).line = m.traceLine := by
  unfold line
  rw [wordText_ofStep, instructionText_ofStep]
  rfl

end TraceEntry

/-- The records of the first steps of an execution, each of the machine before its step. -/
def Execution.records (image : Image) (waiting : List Supply) (steps : Nat) : List TraceEntry :=
  (List.range steps).map fun k => .ofStep ((Execution.after image waiting k).machine image)

theorem Execution.records_succ (image : Image) (waiting : List Supply) (steps : Nat) :
    records image waiting (steps + 1) =
      records image waiting steps ++ [.ofStep ((after image waiting steps).machine image)] := by
  rw [records, List.range_succ, List.map_append]
  rfl

namespace Session

variable {s t : Session}

/-! ## Sessions that differ in their traces -/

/-- Sessions that differ at most in whether they keep a trace, and in the trace. -/
structure SameButTrace (s t : Session) : Prop where
  scene : s.SameScene t
  limit_eq : s.limit = t.limit
  steps_eq : s.steps = t.steps

/-- A pass reads and changes nothing that depends on the trace. -/
theorem SameButTrace.pass (h : s.SameButTrace t) :
    s.pass.1.SameButTrace t.pass.1 ∧ s.pass.2 = t.pass.2 := by
  have hmachine := h.scene.machine_eq
  rcases pass_cases s with ⟨limit, hlimit, hle, hpass⟩ | ⟨hlt, hpass⟩
  · have hother : t.pass = (t, some (.failed (.limitReached limit t.machine.pc))) :=
      pass_of_limit_le (h.limit_eq ▸ hlimit) (h.steps_eq ▸ hle)
    rw [hpass, hother, hmachine]
    exact ⟨h, rfl⟩
  · have hother : t.pass = t.step.respond := pass_of_lt (h.limit_eq ▸ h.steps_eq ▸ hlt)
    have hscene : s.step.SameScene t.step :=
      ⟨congrArg Machine.step hmachine, h.scene.input_eq, h.scene.transcript_eq⟩
    obtain ⟨hscene, houtcome⟩ := hscene.respond
    rw [hpass, hother]
    refine ⟨⟨hscene, ?_, ?_⟩, houtcome⟩
    · rw [limit_respond, limit_respond]
      exact h.limit_eq
    · rw [steps_respond, steps_respond]
      exact congrArg (· + 1) h.steps_eq

/-- Tracing makes no difference to a run, and none to what the session is afterwards but for its
trace. -/
theorem SameButTrace.run (h : s.SameButTrace t) :
    s.run.1.SameButTrace t.run.1 ∧ s.run.2 = t.run.2 := by
  rw [Session.run, Session.run, h.steps_eq]
  exact runFor_alike (fun _ _ hab => hab.pass) h _

/-! ## Records -/

theorem trace_respond (s : Session) : s.respond.1.trace = s.trace :=
  (congrArg Session.trace (respond_keeps_books s)).symm

theorem tracing_respond (s : Session) : s.respond.1.tracing = s.tracing :=
  (congrArg Session.tracing (respond_keeps_books s)).symm

theorem trace_step (s : Session) :
    s.step.trace.toList = s.trace.toList ++ if s.tracing then [.ofStep s.machine] else [] := by
  unfold step
  cases s.tracing <;> simp

/-- A session that is at some point of its execution and has recorded every step up to there, if it
keeps a trace. -/
structure Records (s : Session) (image : Image) (input : Input) (options : SessionOptions) :
    Prop where
  follows : s.Follows image input options
  tracing_eq : s.tracing = options.tracing
  trace_eq : s.trace.toList =
    if options.tracing then Execution.records image input.waiting s.steps else []

variable {image : Image} {input : Input} {options : SessionOptions}

theorem records_start (image : Image) (input : Input) (options : SessionOptions) :
    (start image input options).Records image input options :=
  ⟨follows_start image input options, rfl, (ite_self _).symm⟩

/-- A pass that makes a step records it. -/
theorem Records.pass (h : s.Records image input options) :
    s.pass.1.Records image input options := by
  have hfollows := h.follows.pass
  rcases pass_cases s with ⟨limit, _, _, hpass⟩ | ⟨_, hpass⟩
  · rwa [hpass]
  · rw [hpass] at hfollows ⊢
    refine ⟨hfollows, (tracing_respond s.step).trans h.tracing_eq, ?_⟩
    have hsteps : s.step.steps = s.steps + 1 := rfl
    rw [trace_respond, steps_respond, hsteps, trace_step, h.tracing_eq, h.trace_eq,
      h.follows.machine_eq]
    cases options.tracing with
    | false => rfl
    | true => exact (Execution.records_succ image input.waiting s.steps).symm

/-- A run records the steps that it makes, in order. -/
theorem records_run (image : Image) (input : Input) (options : SessionOptions) :
    (start image input options).run.1.Records image input options :=
  runFor_induction (P := fun s => s.Records image input options) (fun _ h => h.pass)
    (records_start image input options) _

end Session

end Mailbox
