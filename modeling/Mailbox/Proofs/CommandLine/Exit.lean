import Mailbox.Proofs.CommandLine.Run
import Mailbox.Proofs.CommandLine.Tracing
import Mailbox.Proofs.Session.Attendance
set_option autoImplicit false

/-!
# How a run exits

The exit code of a run, and the error that it names.  Main statement: a run exits well, without an
error, if and only if its file loads and the attended program halts within the limit; and otherwise
it names one error, which tells what kept the program from it.

Normative source: SPEC_FULL.md, sections 7 and A2.
-/

namespace Mailbox

/-- What keeps an attended program from halting within the limit, as an error. -/
inductive RunError (limit? : Option Nat) (image : Image) (values : List Supply) : Diagnostic → Prop
  /-- As many steps as the limit allows are made, and the program is not over. -/
  | limitReached {limit : Nat} {m : Machine} {rest : List Supply} : limit? = some limit →
      Attended image values limit m rest → m.status.isTerminal = false →
      RunError limit? image values (.session (.limitReached limit m.pc))
  /-- The next step asks for a value, and none is left. -/
  | starved {n : Nat} {m : Machine} {cause : InputFault} : Attended image values n m [] →
      (∀ limit ∈ limit?, n < limit) → m.step.status.shortage? = some cause →
      RunError limit? image values (.session (.input cause))
  /-- The next step asks for a value, and the next one does not answer. -/
  | unanswered {n : Nat} {m : Machine} {supply : Supply} {rest : List Supply} {cause : InputFault} :
      Attended image values n m (supply :: rest) → (∀ limit ∈ limit?, n < limit) →
      supply.Fails m.step.status cause → RunError limit? image values (.session (.input cause))
  /-- The next step finds a word that is no instruction, and changes nothing but the status. -/
  | invalidInstruction {n : Nat} {m : Machine} {rest : List Supply} :
      Attended image values n m rest → (∀ limit ∈ limit?, n < limit) → m.DecodesAt m.pc none →
      m.step = { m with status := .invalidInstruction } →
      RunError limit? image values (.machine "Reached an invalid instruction" m.pc m.acc)
  /-- The next step is behind the last mailbox, and changes nothing but the status. -/
  | endOfMemory {n : Nat} {m : Machine} {rest : List Supply} :
      Attended image values n m rest → (∀ limit ∈ limit?, n < limit) → m.pc = 100 →
      m.step = { m with status := .endOfMemory } →
      RunError limit? image values (.machine "Reached end of memory" 100 m.acc)

namespace Surroundings

/-- The values for a run. -/
def input (w : Surroundings) (options : RunOptions) : Input :=
  match options.input with
  | some argument => .ofArgument argument
  | none => .ofBytes w.stdin

/-- The limit of a run.  An option goes before the environment. -/
def limit? (w : Surroundings) (options : RunOptions) : Option Nat :=
  options.limit.or w.settings.limit

/-- A run of the file ends, if the file loads. -/
def Ends (w : Surroundings) (path : String) (options : RunOptions) : Prop :=
  ∀ program, w.disk.load path = .ok program → (w.session program.image options).run.2.isSome

/-- The attended program of the file halts within the limit. -/
def Halts (w : Surroundings) (path : String) (options : RunOptions) : Prop :=
  ∃ program, w.disk.load path = .ok program ∧
    HaltsWithin (w.limit? options) program.image (w.input options).waiting

/-- What a report on a run that does not halt says. -/
inductive Reports (w : Surroundings) (path : String) (options : RunOptions) (r : Report) :
    Diagnostic → Prop
  /-- The file does not load, and nothing of a program is written. -/
  | unloaded {e : Diagnostic} : w.disk.load path = .error e →
      r.output = Launch.announcement path options.minimal → Reports w path options r e
  /-- The program does not halt within the limit. -/
  | failed {program : Program} {e : Diagnostic} : w.disk.load path = .ok program →
      RunError (w.limit? options) program.image (w.input options).waiting e →
      Reports w path options r e

theorem session_eq_start (w : Surroundings) (image : Image) (options : RunOptions) :
    w.session image options = .start image (w.input options)
      { minimal := options.minimal
        colored := false
        tracing := options.tracing || w.settings.tracing
        limit := w.limit? options } :=
  rfl

theorem runReport_of_run {w : Surroundings} {options : RunOptions} {image : Image} {final : Session}
    {outcome : Option Outcome} (h : (w.session image options).run = (final, outcome))
    (path : String) :
    (w.runReport image options path).errors = (Launch.error? final outcome).toList ∧
      (w.runReport image options path).exit =
        if (Launch.error? final outcome).toList.isEmpty then 0 else 1 := by
  simp only [runReport, h, and_self]

end Surroundings

namespace Session

variable {image : Image} {values : List Supply} {s final : Session}

/-- The step to a fault changes nothing but the status. -/
theorem UnderWay.runError_of_fault (h : s.UnderWay image values) (hmay : s.MayStep) {text : String}
    (hfault : s.machine.step.status.faultText? = some text) :
    RunError s.limit image values (.machine text s.machine.step.pc s.machine.step.acc) := by
  rcases Machine.step_cases (h.attended.isReady h.not_over) with
    ⟨hpc, hstep⟩ | ⟨hdecodes, hstep⟩ | ⟨i, _, hstep⟩
  · have hbehind : s.machine.pc = 100 := Nat.le_antisymm h.attended.invariant.pc_le hpc
    rw [hstep] at hfault ⊢
    obtain rfl := Option.some.inj hfault
    show RunError s.limit image values (.machine _ s.machine.pc s.machine.acc)
    rw [hbehind]
    exact .endOfMemory h.attended hmay hbehind hstep
  · rw [hstep] at hfault ⊢
    obtain rfl := Option.some.inj hfault
    show RunError s.limit image values (.machine _ s.machine.pc s.machine.acc)
    exact .invalidInstruction h.attended hmay hdecodes hstep
  -- No instruction is a fault.
  · rw [hstep] at hfault
    cases i <;> cases hfault

/-- A run that ends with an error was kept from halting by what the error tells. -/
theorem UnderWay.runError {outcome : Outcome} {e : Diagnostic} (h : s.UnderWay image values)
    (hpassing : s.Passing final.machine final.input.waiting (some outcome))
    (herror : Launch.error? final (some outcome) = some e) : RunError s.limit image values e := by
  generalize hmachine : final.machine = machine at hpassing
  generalize final.input.waiting = waiting at hpassing
  cases hpassing with
  | stopped hlimit hle =>
    obtain rfl := Option.some.inj herror
    have hsteps := Nat.le_antisymm hle (h.within _ hlimit)
    exact .limitReached hlimit (hsteps ▸ h.attended) h.not_over
  | ended hmay hterminal =>
    obtain ⟨text, htext, rfl⟩ := Option.map_eq_some_iff.1 herror
    rw [hmachine]
    exact h.runError_of_fault hmay htext
  | starved hmay hnil hshortage =>
    obtain rfl := Option.some.inj herror
    exact .starved (hnil ▸ h.attended) hmay hshortage
  | failed hmay hcons hfails =>
    obtain rfl := Option.some.inj herror
    exact .unanswered (hcons ▸ h.attended) hmay hfails

/-- A run that ends without an error has halted. -/
theorem error?_eq_none_iff {outcome : Outcome}
    (hpassing : s.Passing final.machine final.input.waiting (some outcome)) :
    Launch.error? final (some outcome) = none ↔ outcome = .ended .halted := by
  cases outcome with
  | failed fault => exact ⟨nofun, nofun⟩
  | ended status =>
    obtain ⟨_, hterminal, _, rfl⟩ := hpassing.of_ended
    cases hs : s.machine.step.status with
    | halted => exact ⟨fun _ => rfl, fun _ => rfl⟩
    | endOfMemory | invalidInstruction => exact ⟨nofun, nofun⟩
    | _ => rw [hs] at hterminal; cases hterminal

end Session

namespace Surroundings

variable {w : Surroundings} {path : String} {options : RunOptions}

theorem halts_iff_of_load {program : Program} (hload : w.disk.load path = .ok program) :
    w.Halts path options ↔
      HaltsWithin (w.limit? options) program.image (w.input options).waiting := by
  constructor
  · rintro ⟨other, hother, h⟩
    obtain rfl := Except.ok.inj (hload.symm.trans hother)
    exact h
  · exact fun h => ⟨program, hload, h⟩

theorem not_halts_of_load_error {e : Diagnostic} (hload : w.disk.load path = .error e) :
    ¬ w.Halts path options := by
  rintro ⟨program, hprogram, _⟩
  rw [hload] at hprogram
  cases hprogram

/-- The exit code and the errors of a run that ends. -/
theorem runReport_exit {image : Image} (hends : (w.session image options).run.2.isSome)
    (path : String) :
    ((w.runReport image options path).exit = 0 ∧ (w.runReport image options path).errors = [] ↔
        HaltsWithin (w.limit? options) image (w.input options).waiting) ∧
      (¬ HaltsWithin (w.limit? options) image (w.input options).waiting →
        (w.runReport image options path).exit = 1 ∧
          ∃ e, (w.runReport image options path).errors = [e] ∧
            RunError (w.limit? options) image (w.input options).waiting e) := by
  obtain ⟨outcome, houtcome⟩ := Option.isSome_iff_exists.1 hends
  have hrun : (w.session image options).run = ((w.session image options).run.1, some outcome) :=
    Prod.ext rfl houtcome
  generalize (w.session image options).run.1 = final at hrun
  obtain ⟨herrors, hexit⟩ := runReport_of_run hrun path
  rw [session_eq_start] at hrun
  obtain ⟨last, hunder, hlimit, hpassing⟩ := Session.exists_underWay hrun
  have hiff := (Session.haltsWithin_iff hrun).trans (Session.error?_eq_none_iff hpassing).symm
  rw [herrors, hexit, hiff]
  cases herror : Launch.error? final (some outcome) with
  | none => exact ⟨iff_of_true ⟨rfl, rfl⟩ rfl, fun hnot => absurd rfl hnot⟩
  | some e =>
    have hreason := hunder.runError hpassing herror
    rw [hlimit] at hreason
    exact ⟨iff_of_false (by simp) nofun, fun _ => ⟨rfl, e, rfl, hreason⟩⟩

end Surroundings

/-- A run that ends exits well, without an error, if and only if the file loads and the attended
program halts within the limit.  Otherwise it names one error: why the file does not load, or what
kept the program from halting. -/
theorem executeArguments_run_exit {w : Surroundings} {args : List String} {path : String}
    {options : RunOptions} (hargs : Command.ofArguments? args = some (.run path options))
    (hends : w.Ends path options) :
    let r := executeArguments w args
    (r.exit = 0 ∧ r.errors = [] ↔ w.Halts path options) ∧
      (¬ w.Halts path options →
        r.exit = 1 ∧ ∃ e, r.errors = [e] ∧ w.Reports path options r e) := by
  simp only [executeArguments, hargs, Command.execute]
  cases hload : w.disk.load path with
  | error e =>
    have hnot : ¬ w.Halts path options := Surroundings.not_halts_of_load_error hload
    rw [executeRun_of_load_error hload]
    exact ⟨iff_of_false (by simp [Report.failure]) hnot,
      fun _ => ⟨rfl, e, rfl, .unloaded hload rfl⟩⟩
  | ok program =>
    obtain ⟨hexit, herrors⟩ := Surroundings.runReport_exit (hends program hload) path
    rw [executeRun_of_load hload, Surroundings.halts_iff_of_load hload]
    refine ⟨hexit, fun hnot => ?_⟩
    obtain ⟨hone, e, he, hreason⟩ := herrors hnot
    exact ⟨hone, e, he, .failed hload hreason⟩

/-- A program that stores 999 over its halt instruction fails at that mailbox. -/
theorem executeArguments_run_exit_overwritten :
    let w : Surroundings :=
      ⟨{ nodes := [(["self.lmc"], .file "LDA x\nSTA 2\nHLT\nx DAT 999".toUTF8)] },
        ⟨false, none⟩, .empty⟩
    let options : RunOptions := ⟨none, true, false, none⟩
    let r := executeArguments w ["run", "self.lmc", "--minimal"]
    ¬ w.Halts "self.lmc" options ∧ r.exit = 1 ∧
      w.Reports "self.lmc" options r (.machine "Reached an invalid instruction" 2 999) := by
  intro w options r
  have hargs : Command.ofArguments? ["run", "self.lmc", "--minimal"] =
      some (.run "self.lmc" options) := by decide +kernel
  have himage : (w.disk.load "self.lmc").map Program.image =
      .ok (Image.ofList [503, 302, 0, 999]) := by decide +kernel
  have hends : w.Ends "self.lmc" options := by
    intro program hload
    rw [hload] at himage
    rw [Except.ok.inj himage]
    decide +kernel
  obtain ⟨hexit, hreport⟩ := executeArguments_run_exit hargs hends
  have herrors : r.errors = [.machine "Reached an invalid instruction" 2 999] := by
    decide +kernel
  have hnot : ¬ w.Halts "self.lmc" options := fun h => by
    have hnone : r.errors = [] := (hexit.2 h).2
    rw [herrors] at hnone
    cases hnone
  obtain ⟨hone, e, he, hreason⟩ := hreport hnot
  obtain rfl : .machine "Reached an invalid instruction" 2 999 = e :=
    (List.cons.inj (herrors.symm.trans he)).1
  exact ⟨hnot, hone, hreason⟩

end Mailbox
