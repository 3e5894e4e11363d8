import Mailbox.CommandLine.Execution
set_option autoImplicit false

/-!
# Running a file

What running comes to once the file is loaded.  Main statement: runs of two files that hold the
same image leave the same behind, up to the name of the file in the notices about it.
-/

namespace Mailbox

variable {w : Surroundings} {path : String} {options : RunOptions}

/-- The session in which an image is run. -/
def Surroundings.session (w : Surroundings) (image : Image) (options : RunOptions) : Session :=
  Session.start image
    (match options.input with
      | some argument => Input.ofArgument argument
      | none => Input.ofBytes w.stdin)
    (w.sessionOptions options)

/-- The text of a run with all it says about its file: the announcement, what the run writes, and
the verdict, if there is one. -/
def Launch.framed (minimal : Bool) (path body : String) (verdict : Option String) : String :=
  announcement path minimal ++ body ++
    verdict.elim "" fun word => frame minimal (fileNotice word path)

/-- The word for how a run went, if it went to its end. -/
def Outcome.verdict? : Outcome → Option String
  | .ended status => some (if status.isFault then "Failed" else "Completed")
  | .failed _ => none

/-- The report on a run, as a function of the name of the file. -/
def Surroundings.runReport (w : Surroundings) (image : Image) (options : RunOptions)
    (path : String) : Report :=
  let (final, outcome) := (w.session image options).run
  let errors := (Launch.error? final outcome).toList
  let opening := Launch.frame options.minimal (notice "Running" "assembled image")
  { exit := if errors.isEmpty then 0 else 1
    output := Launch.framed options.minimal path (opening ++ final.transcript.text)
      (outcome.bind Outcome.verdict?)
    errors := errors
    trace := final.trace.toList.map TraceEntry.line
    disk := w.disk }

theorem Launch.prepare_of_load {program : Program} (h : w.disk.load path = .ok program) :
    prepare w path options = .ok ⟨path, options.minimal, w.session program.image options⟩ := by
  rw [prepare, h]
  rfl

theorem Launch.prepare_of_load_error {e : Diagnostic} (h : w.disk.load path = .error e) :
    prepare w path options = .error e := by
  rw [prepare, h]
  rfl

theorem Launch.closing_eq (l : Launch) (outcome : Option Outcome) :
    l.closing outcome = (outcome.bind Outcome.verdict?).elim "" fun word =>
      frame l.minimal (fileNotice word l.path) := by
  rcases outcome with _ | (status | fault) <;> rfl

/-- A file that is loaded is run for its image. -/
theorem executeRun_of_load {program : Program} (h : w.disk.load path = .ok program) :
    executeRun w path options = w.runReport program.image options path := by
  simp only [executeRun, Launch.prepare_of_load h, Launch.report, Launch.closing_eq,
    Surroundings.runReport, Launch.framed, Launch.opening, String.append_assoc]

/-- A program that cannot be loaded is reported as such, with or without a trace. -/
theorem executeRun_of_load_error {e : Diagnostic} (h : w.disk.load path = .error e) :
    executeRun w path options =
      .failure w.disk (Launch.announcement path options.minimal) e := by
  simp only [executeRun, Launch.prepare_of_load_error h]

/-- Reports on runs that differ at most in the name of the file in the notices about it. -/
structure Report.SameButName (minimal : Bool) (path path' : String) (r r' : Report) : Prop where
  exit : r.exit = r'.exit
  errors : r.errors = r'.errors
  trace : r.trace = r'.trace
  output : ∃ body verdict, r.output = Launch.framed minimal path body verdict ∧
    r'.output = Launch.framed minimal path' body verdict

/-- Runs of files with the same image differ at most in the name of the file. -/
theorem executeRun_sameButName {w' : Surroundings} {path' : String} {program program' : Program}
    (hsettings : w.settings = w'.settings) (hstdin : w.stdin = w'.stdin)
    (h : w.disk.load path = .ok program) (h' : w'.disk.load path' = .ok program')
    (himage : program.image = program'.image) :
    Report.SameButName options.minimal path path' (executeRun w path options)
      (executeRun w' path' options) := by
  have hsession : w'.session program'.image options = w.session program.image options := by
    simp only [Surroundings.session, Surroundings.sessionOptions, hsettings, hstdin, himage]
  rw [executeRun_of_load h, executeRun_of_load h', Surroundings.runReport, Surroundings.runReport,
    hsession]
  exact ⟨rfl, rfl, rfl, _, _, rfl, rfl⟩

end Mailbox
