import Mailbox.Proofs.CommandLine.Run
import Mailbox.Proofs.Session.Dialogue
set_option autoImplicit false

/-!
# Running a file at a terminal

What the user at a terminal has to do with the report on a run.  Main statement: the report is that
of a session for which the values given at the terminal were waiting from the start, and it names
no fault of a line that the user could type again.

Normative source: SPEC_FULL.md, section A6.8.
-/

namespace Mailbox

variable {w : Surroundings} {path : String} {options : RunOptions} {program : Program}

/-- A terminal has words of its own for a missing key, and for no other fault over a value. -/
theorem Terminal.diagnose_eq_input {t : Terminal} {error : Diagnostic} {cause : InputFault}
    (h : t.diagnose error = .session (.input cause)) : error = .session (.input cause) := by
  unfold diagnose at h
  split at h
  · cases h
  · exact h

theorem Launch.error?_eq_input {final : Session} {outcome : Option Outcome} {cause : InputFault}
    (h : error? final outcome = some (.session (.input cause))) :
    outcome = some (.failed (.input cause)) := by
  rcases outcome with _ | (status | fault)
  · cases h
  · obtain ⟨text, -, htext⟩ := Option.map_eq_some_iff.1 h
    cases htext
  · cases h
    rfl

/-- A run has nothing to ask at the terminal if its values are given as an argument, or if its file
does not load. -/
theorem executeRunAt_eq_executeRun {t : Terminal}
    (h : options.input.isSome ∨ ∃ e, w.disk.load path = .error e) :
    executeRunAt w t path options = (executeRun w path options, t) := by
  cases hinput : options.input with
  | some argument => simp only [executeRunAt, hinput]
  | none =>
    obtain hsome | ⟨e, hload⟩ := h
    · rw [hinput] at hsome
      cases hsome
    · have hload' : ({ w with stdin := .empty } : Surroundings).disk.load path = .error e := hload
      simp only [executeRunAt, hinput, Launch.prepare_of_load_error hload',
        executeRun_of_load_error hload]

/-- A command line comes to the same at a terminal as elsewhere, unless it is for a run that has to
ask for its values. -/
theorem executeArgumentsAt_eq_executeArguments {t : Terminal} {args : List String}
    (h : ∀ path options, Command.ofArguments? args = some (.run path options) →
      options.input.isSome ∨ ∃ e, w.disk.load path = .error e) :
    executeArgumentsAt w t args = (executeArguments w args, t) := by
  unfold executeArgumentsAt executeArguments
  cases hcommand : Command.ofArguments? args with
  | none => rfl
  | some command =>
    cases command with
    | run path options => exact executeRunAt_eq_executeRun (h path options hcommand)
    | _ => rfl

/-- The report of a launched session, where the run was made at a terminal. -/
def Launch.reportAt (l : Launch) (disk : Disk) (t : Terminal)
    (result : Session × Option Outcome) : Report :=
  l.report disk result.1 result.2 ((error? result.1 result.2).toList.map t.diagnose)

/-- A file that is loaded is run in a dialogue with the terminal, unless its values are given as an
argument. -/
theorem executeRunAt_of_load {t : Terminal} (hload : w.disk.load path = .ok program)
    (hnone : options.input = none) :
    let d := Dialogue.start program.image (w.sessionOptions options) t
    executeRunAt w t path options =
      ((Launch.mk path options.minimal d.session).reportAt w.disk d.run.1.terminal
        (d.run.1.session, d.run.2), d.run.1.terminal) := by
  intro d
  have hload' : ({ w with stdin := .empty } : Surroundings).disk.load path = .ok program := hload
  have hsession : ({ w with stdin := .empty } : Surroundings).session program.image options =
      d.session := by
    simp only [Surroundings.session, hnone]
    rfl
  have hdialogue : Dialogue.mk d.session t = d := rfl
  simp only [executeRunAt, hnone, Launch.prepare_of_load hload', hsession, hdialogue,
    Launch.reportAt]

/-- The report on a run at a terminal is the report on a run of a session for which the values
given there were waiting from the start, with the terminal's own words where no key could be read.
All that was typed is accounted for.  The report names a fault over a value only where there was
none left, or none that could be read. -/
theorem executeRunAt_like_session (hload : w.disk.load path = .ok program)
    (hnone : options.input = none) (lines : List Supply) (keys : List Key) (keyFault : String) :
    let t := Terminal.fresh lines keys keyFault
    let r := executeRunAt w t path options
    let s := Session.start program.image ⟨r.2.given⟩ (w.sessionOptions options)
    r.1 = (Launch.mk path options.minimal s).reportAt w.disk r.2 s.run ∧
      (∃ typed pressed, t.Accounts r.2 typed pressed r.2.given) ∧
      ∀ cause, .session (.input cause) ∈ r.1.errors → r.2.Stuck cause := by
  intro t r s
  let d := Dialogue.start program.image (w.sessionOptions options) t
  have hr : r = ((Launch.mk path options.minimal d.session).reportAt w.disk d.run.1.terminal
      (d.run.1.session, d.run.2), d.run.1.terminal) := executeRunAt_of_load hload hnone
  have hterminal : r.2 = d.run.1.terminal := by rw [hr]
  obtain ⟨hrun, haccounts, hstuck⟩ :=
    Dialogue.run_like_session program.image (w.sessionOptions options) lines keys keyFault
  have hsession : s.run = (d.run.1.session, d.run.2) := by
    rw [← hrun, ← hterminal]
  refine ⟨?_, ?_, fun cause hmem => ?_⟩
  · rw [hsession, hterminal, hr]
    rfl
  · rw [hterminal]
    exact haccounts
  · rw [hr] at hmem
    obtain ⟨error, herror, heq⟩ := List.mem_map.1 hmem
    have hcause := Terminal.diagnose_eq_input heq
    rw [hcause, Option.mem_toList] at herror
    rw [hterminal]
    exact hstuck cause (Launch.error?_eq_input herror)

example :
    let disk : Disk := { nodes := [(["copy.lmc"], .file "IN\nOUT\nINA\nOTA\nHLT".toUTF8)] }
    let t := Terminal.fresh [.text "five", .text "5"] [.other, .char 'q'] "no key"
    let r := executeRunAt ⟨disk, ⟨false, none⟩, .empty⟩ t "copy.lmc" ⟨none, true, false, none⟩
    r.1.output = "5\nq" ∧ r.2.given = [.text "5", .text "q"] ∧
      r.2.complaints = ["Invalid number `five`, try again"] := by decide +kernel

end Mailbox
