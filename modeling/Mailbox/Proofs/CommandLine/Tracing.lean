import Mailbox.Proofs.CommandLine.Arguments
import Mailbox.Proofs.CommandLine.Run
import Mailbox.Proofs.Session.Tracing
set_option autoImplicit false

/-!
# Runs with a trace

A trace is asked for by an option or by the environment.  Main statement: either way the run leaves
the same report behind as without a trace, but for the trace itself, and the trace has one line for
each step of the run.

Normative source: SPEC_FULL.md, sections A3 and A4.
-/

namespace Mailbox

open Arguments

variable {w : Surroundings} {path : String} {options : RunOptions}

/-- The same surroundings, but for whether the environment asks for a trace. -/
def Surroundings.withTracing (w : Surroundings) (tracing : Bool) : Surroundings :=
  { w with settings := { w.settings with tracing } }

/-- The report on a run with a trace, next to that on the same run without.  They differ in their
traces only.  The trace has a line for each step that the run makes, in order, which tells of the
machine that the execution has reached before the step; it has none if there is no program. -/
structure Report.Traces (w : Surroundings) (path : String) (options : RunOptions)
    (plain traced : Report) : Prop where
  eq_plain : traced = { plain with trace := traced.trace }
  unloaded : ∀ e, w.disk.load path = .error e → traced.trace = []
  lines : ∀ program, w.disk.load path = .ok program →
    let session := w.session program.image options
    let final := session.run.1
    let machine (k : Nat) :=
      (Execution.after program.image session.input.waiting k).machine program.image
    final.machine = machine final.steps ∧ (∀ k, (machine k).pc ≤ 100) ∧
      traced.trace = (List.range final.steps).map fun k => (machine k).traceLine

/-- The program counter of every machine in an execution is in the mailboxes or just behind them. -/
theorem Execution.pc_machine_le (image : Image) (e : Execution) : (e.machine image).pc ≤ 100 :=
  (Machine.invariant_performAll image e.operations).pc_le

/-- The error of a run depends on the machine that it leaves behind. -/
theorem Launch.error?_of_machine_eq {s t : Session} (h : s.machine = t.machine)
    (outcome : Option Outcome) : error? s outcome = error? t outcome := by
  unfold error?
  rw [h]

namespace Surroundings

/-- The session of a run is the same with or without a trace, but for the trace. -/
theorem session_withTracing (w : Surroundings) (image : Image) (options : RunOptions)
    (asked set : Bool) :
    ((w.withTracing set).session image { options with tracing := asked }).SameButTrace
      (w.session image options) :=
  ⟨⟨rfl, rfl, rfl⟩, rfl, rfl⟩

/-- The report on a run depends on whether there is a trace in its trace only. -/
theorem runReport_withTracing (w : Surroundings) (image : Image) (options : RunOptions)
    (path : String) (asked set : Bool) :
    (w.withTracing set).runReport image { options with tracing := asked } path =
      { w.runReport image options path with
        trace := ((w.withTracing set).session image
          { options with tracing := asked }).run.1.trace.toList.map TraceEntry.line } := by
  have hrun := (w.session_withTracing image options asked set).run
  unfold runReport
  generalize ((w.withTracing set).session image { options with tracing := asked }).run = r at hrun ⊢
  generalize (w.session image options).run = q at hrun ⊢
  obtain ⟨s, result⟩ := r
  obtain ⟨t, outcome⟩ := q
  obtain ⟨hsame, houtcome⟩ : s.SameButTrace t ∧ result = outcome := hrun
  subst houtcome
  have herror := Launch.error?_of_machine_eq hsame.scene.machine_eq result
  have htext : s.transcript.text = t.transcript.text :=
    congrArg Transcript.text hsame.scene.transcript_eq
  simp only [herror, htext]
  rfl

/-- A run records the steps that it makes. -/
theorem records_session (w : Surroundings) (image : Image) (options : RunOptions) :
    (w.session image options).run.1.Records image (w.session image options).input
      (w.sessionOptions options) :=
  Session.records_run image _ _

end Surroundings

/-- A run that is asked for a trace, one way or the other, leaves behind what it would without, and
the trace. -/
theorem Report.traces_executeRun (w : Surroundings) (path : String) (options : RunOptions)
    (asked set : Bool) (h : (asked || set) = true) :
    Traces w path options (executeRun w path options)
      (executeRun (w.withTracing set) path { options with tracing := asked }) := by
  cases hload : w.disk.load path with
  | error e =>
    have hother : (w.withTracing set).disk.load path = .error e := hload
    rw [executeRun_of_load_error hload, executeRun_of_load_error hother]
    exact ⟨rfl, fun _ _ => rfl, fun program hprogram => absurd (hload.symm.trans hprogram) (by simp)⟩
  | ok program =>
    have hother : (w.withTracing set).disk.load path = .ok program := hload
    rw [executeRun_of_load hload, executeRun_of_load hother, Surroundings.runReport_withTracing]
    refine ⟨rfl, fun e he => absurd (hload.symm.trans he) (by simp), fun other hprogram => ?_⟩
    obtain rfl := Except.ok.inj (hload.symm.trans hprogram)
    have hrun := (w.session_withTracing program.image options asked set).run.1
    have hfollows := (w.records_session program.image options).follows
    refine ⟨hfollows.machine_eq, fun k => Execution.pc_machine_le _ _, ?_⟩
    have htrace := ((w.withTracing set).records_session program.image
      { options with tracing := asked }).trace_eq.trans (if_pos h)
    rw [hrun.steps_eq] at htrace
    rw [htrace, Execution.records, List.map_map]
    exact List.map_congr_left fun k _ => TraceEntry.line_ofStep _

/-- A run that is not asked for a trace keeps none. -/
theorem trace_executeRun (hoptions : options.tracing = false) (hsettings : w.settings.tracing = false)
    (path : String) : (executeRun w path options).trace = [] := by
  cases hload : w.disk.load path with
  | error e => rw [executeRun_of_load_error hload]; rfl
  | ok program =>
    have hoff : ¬ (w.sessionOptions options).tracing := by
      simp [Surroundings.sessionOptions, hoptions, hsettings]
    have hnone := (w.records_session program.image options).trace_eq
    rw [if_neg hoff] at hnone
    rw [executeRun_of_load hload, Surroundings.runReport]
    exact congrArg (List.map TraceEntry.line) hnone

/-- A trace may be asked for by an option between the arguments for running a program, or by the
environment.  Without either there is none.  With it the run has the same exit code, writes the same
text and names the same errors, and the trace has a line for each step in order.  The arguments in
front of the option have to be complete. -/
theorem executeArguments_trace {front rest : List String} {given : Given} {path : String}
    {options : RunOptions} {other : Option String} (hdashes : "--" ∉ front)
    (hfront : read runForm .empty front = .ok given)
    (hrun : Command.ofArguments? ("run" :: (front ++ rest)) = some (.run path options))
    (hnone : options.tracing = false) (hother : other ≠ some "1") (disk : Disk)
    (limit : Option String) (stdin : ByteArray) :
    let surroundings (tracing : Option String) : Surroundings :=
      ⟨disk, .ofTexts tracing limit, stdin⟩
    let plain := executeArguments (surroundings other) ("run" :: (front ++ rest))
    plain.trace = [] ∧
      Report.Traces (surroundings other) path options plain
        (executeArguments (surroundings (some "1")) ("run" :: (front ++ rest))) ∧
      ∀ tracing, Report.Traces (surroundings other) path options plain
        (executeArguments (surroundings tracing) ("run" :: (front ++ "--trace" :: rest))) := by
  intro surroundings plain
  have hset : (surroundings other).settings.tracing = false := beq_eq_false_iff_ne.2 hother
  have hwith (tracing : Option String) :
      (surroundings other).withTracing (tracing == some "1") = surroundings tracing := rfl
  have hoptions : { options with tracing := false } = options := by
    rw [← hnone]
  simp only [plain, executeArguments, hrun, ofArguments?_run_trace hdashes hfront hrun hnone,
    Command.execute]
  refine ⟨trace_executeRun hnone hset path, ?_, fun tracing => ?_⟩
  · have htraces := Report.traces_executeRun (surroundings other) path options false
      (some "1" == some "1") (by decide)
    rwa [hwith, hoptions] at htraces
  · have htraces := Report.traces_executeRun (surroundings other) path options true
      (tracing == some "1") rfl
    rwa [hwith] at htraces

/-- A program that stores over its own first instruction is traced as it was before that. -/
theorem executeArguments_trace_self :
    let disk : Disk := { nodes := [(["self.lmc"], .file "self STA self\nHLT".toUTF8)] }
    let surroundings (tracing : Option String) : Surroundings :=
      ⟨disk, .ofTexts tracing none, .empty⟩
    let plain := executeArguments (surroundings none) ["run", "self.lmc", "--minimal"]
    let traced := executeArguments (surroundings none) ["run", "self.lmc", "--trace", "--minimal"]
    plain.trace = [] ∧ traced = { plain with trace := traced.trace } ∧
      traced.trace =
        ["[pc=00 acc=0] 300 STO 00 -> status 0", "[pc=01 acc=0] 000 HLT -> status 3"] := by
  intro disk surroundings plain traced
  have hfront : read runForm .empty ["self.lmc"] = .ok ⟨[], #["self.lmc"]⟩ := rfl
  have hrun : Command.ofArguments? ("run" :: (["self.lmc"] ++ ["--minimal"])) =
      some (.run "self.lmc" ⟨none, true, false, none⟩) := by decide +kernel
  obtain ⟨hnone, -, htraces⟩ := executeArguments_trace (by decide) hfront hrun rfl
    (show (none : Option String) ≠ some "1" by decide) disk none .empty
  exact ⟨hnone, (htraces none).eq_plain, by decide +kernel⟩

end Mailbox
