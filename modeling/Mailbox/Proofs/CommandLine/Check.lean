import Mathlib.Data.List.Basic
import Mailbox.CommandLine.Execution
import Mailbox.Proofs.Assembly.Assembling
import Mailbox.Proofs.CommandLine.Arguments
import Mailbox.Proofs.Files.Search
set_option autoImplicit false

/-!
# Checking files

A check goes through all of its files, whatever is wrong with those before.  Main statement: what it
says of a file depends on the name and the content of that file alone, it says so in the order of
the files, and it counts the ones that fail.

Normative source: SPEC_FULL.md, section A4.
-/

namespace Mailbox

/-! ## What is said of a file -/

/-- The verdict on a file: the number of statements in its source, or what is wrong with it. -/
inductive Judged (content : ByteArray) : Except Diagnostic Nat → Prop
  /-- The content is text, and nothing is wrong with its statements. -/
  | sound {source : String} {ss : List Statement} : String.fromUTF8? content = some source →
      Statement.parse source = .ok ss → Program.Acceptable ss → Judged content (.ok ss.length)
  /-- The content is no text. -/
  | garbled : String.fromUTF8? content = none → Judged content (.error .notText)
  /-- The content is text that does not assemble. -/
  | faulty {source : String} {e : AssemblyError} : String.fromUTF8? content = some source →
      Program.Reports source e → Judged content (.error (.assembly e))

/-- The verdict that assembling finds. -/
def judge (content : ByteArray) : Except Diagnostic Nat :=
  match String.fromUTF8? content with
  | none => .error .notText
  | some source =>
    match Program.assemble source with
    | .error e => .error (.assembly e)
    | .ok program => .ok program.length

/-- What is wrong with a file, by the verdict on it. -/
def faultOf? : Except Diagnostic Nat → Option Diagnostic
  | .ok _ => none
  | .error e => some e

/-- What a check writes about a file, by the verdict on it. -/
def checkText (path : String) (verdict : Except Diagnostic Nat) : String :=
  fileNotice "Checking" path ++
    match verdict with
    | .ok count => notice "Success" s!"{count} of 100 mailboxes used"
    | .error _ => ""

variable {content : ByteArray}

theorem judged_judge (content : ByteArray) : Judged content (judge content) := by
  unfold judge
  cases htext : String.fromUTF8? content with
  | none => exact .garbled htext
  | some source =>
    dsimp only
    cases hassemble : Program.assemble source with
    | error e => exact .faulty htext ((Program.assemble_eq_error_iff source e).1 hassemble)
    | ok program =>
      obtain ⟨ss, hparse, hss⟩ := Program.exists_parse_of_assemble hassemble
      have hacceptable := (Program.exists_assemble_iff_acceptable hparse).1 ⟨program, hassemble⟩
      have hlength := (Program.represents_of_ofStatements hss).length_eq
      dsimp only
      rw [hlength]
      exact .sound htext hparse hacceptable

/-- There is one verdict on a content. -/
theorem judge_eq_iff (content : ByteArray) (verdict : Except Diagnostic Nat) :
    judge content = verdict ↔ Judged content verdict := by
  refine ⟨fun h => h ▸ judged_judge content, fun h => ?_⟩
  cases h with
  | garbled htext => rw [judge, htext]
  | faulty htext hreports =>
    rw [judge, htext]
    simp only [(Program.assemble_eq_error_iff _ _).2 hreports]
  | sound htext hparse hacceptable =>
    obtain ⟨program, hprogram⟩ := (Program.exists_assemble_iff_acceptable hparse).2 hacceptable
    rw [judge, htext]
    simp only [hprogram, (Program.represents_of_assemble hparse hprogram).length_eq]

namespace Disk

variable {disk : Disk} {path : String}

/-- A check looks at the content of a file and at nothing else. -/
theorem checkFile_of_read (h : disk.read path = .ok content) :
    disk.checkFile path = (checkText path (judge content), faultOf? (judge content)) := by
  simp only [checkFile, loadSource, h, judge]
  cases String.fromUTF8? content with
  | none => simp [checkText, faultOf?]
  | some source =>
    dsimp only
    cases Program.assemble source with
    | error e => simp [checkText, faultOf?]
    | ok program => rfl

/-- Patterns that are the paths of files stand for these files, in order. -/
theorem searchAll_of_find {paths : List String}
    (h : ∀ path ∈ paths, Path.IsSpelled path ∧ ∃ node, disk.find path = .ok node) :
    disk.searchAll paths = .ok paths := by
  induction paths with
  | nil => rfl
  | cons path paths ih =>
    obtain ⟨⟨hpath, node, hfind⟩, hpaths⟩ := List.forall_mem_cons.1 h
    simp only [searchAll, search_of_find hpath hfind, ih hpaths]
    rfl

end Disk

/-! ## Names on the command line -/

namespace Arguments

variable {names : List String}

theorem addOthers_texts (given : Given) (names : List String) :
    names.foldlM (Given.addOther · .texts ·) given =
      .ok { given with others := given.others ++ names } := by
  induction names generalizing given with
  | nil => simp [pure, Except.pure]
  | cons name names ih =>
    rw [List.foldlM_cons]
    show names.foldlM (Given.addOther · .texts ·)
      { given with others := given.others.push name } = _
    rw [ih]
    simp

theorem read_of_no_options {given : Given} (h : ∀ name ∈ names, isOption name = false) :
    read ⟨[], .texts⟩ given names = .ok { given with others := given.others ++ names } := by
  induction names generalizing given with
  | nil => simp [read]
  | cons name names ih =>
    obtain ⟨hname, hnames⟩ := List.forall_mem_cons.1 h
    have hdashes : ¬ (name == "--") = true := by
      intro heq
      rw [eq_of_beq heq] at hname
      exact absurd hname (by decide)
    rw [read, if_neg hdashes, readOne_of_not_isOption hname]
    show read ⟨[], .texts⟩ { given with others := given.others.push name } names = _
    rw [ih hnames]
    simp

/-- Names that do not look like options are checked, and any names are behind two dashes. -/
theorem ofArguments?_check (hne : names ≠ []) :
    Command.ofArguments? ("check" :: "--" :: names) = some (.check names) ∧
      ((∀ name ∈ names, isOption name = false) →
        Command.ofArguments? ("check" :: names) = some (.check names)) := by
  have hothers : (Given.empty.others ++ names).isEmpty = false := by
    simpa [Given.empty] using hne
  have hlist : (Given.empty.others ++ names).toList = names := by simp [Given.empty]
  -- Both ways all that is read is the names.
  have hcommand {args : List String}
      (h : read ⟨[], .texts⟩ .empty args = .ok ⟨[], Given.empty.others ++ names⟩) :
      Command.ofArguments? ("check" :: args) = some (.check names) := by
    have hcheck : readAll none ("check" :: args) = readCheck args := rfl
    rw [Command.ofArguments?, hcheck, readCheck, h]
    simp only [bind, Except.bind, hothers, hlist]
    rfl
  exact ⟨hcommand (addOthers_texts .empty names), fun h => hcommand (read_of_no_options h)⟩

end Arguments

/-! ## What is said of all files -/

variable {files : List (String × ByteArray)}

theorem Disk.checkFiles_of_read {disk : Disk} (h : ∀ file ∈ files, disk.read file.1 = .ok file.2) :
    let faults := files.filterMap fun file => faultOf? (judge file.2)
    disk.checkFiles (files.map Prod.fst) =
      { exit := if faults = [] then 0 else 1
        output := String.join (files.map fun file => checkText file.1 (judge file.2))
        errors := faults ++ if faults = [] then [] else [.failedFiles faults.length]
        trace := []
        disk := disk } := by
  have hresults : (files.map Prod.fst).map disk.checkFile =
      files.map fun file => (checkText file.1 (judge file.2), faultOf? (judge file.2)) := by
    rw [List.map_map]
    exact List.map_congr_left fun file hfile => checkFile_of_read (h file hfile)
  simp only [checkFiles, hresults, List.filterMap_map, List.map_map, Function.comp_def,
    List.isEmpty_iff]
  generalize files.filterMap (fun file => faultOf? (judge file.2)) = faults
  cases faults <;> simp

theorem faults_eq_nil_iff :
    (files.filterMap fun file => faultOf? (judge file.2)) = [] ↔
      ∀ file ∈ files, ∃ count, Judged file.2 (.ok count) := by
  rw [List.filterMap_eq_nil_iff]
  refine forall₂_congr fun file _ => ?_
  simp only [← judge_eq_iff]
  cases judge file.2 <;> simp [faultOf?]

/-- A check of files under plain paths says of each what the verdict on its content is, in the order
of the files, and then how many of them fail.  It exits well if and only if none does, and leaves
the disk as it is. -/
theorem executeArguments_check {w : Surroundings} {args : List String}
    (hargs : Command.ofArguments? args = some (.check (files.map Prod.fst)))
    (hfiles : ∀ file ∈ files, Path.IsSpelled file.1 ∧ w.disk.read file.1 = .ok file.2) :
    let r := executeArguments w args
    let faults := files.filterMap fun file => faultOf? (judge file.2)
    r.output = String.join (files.map fun file => checkText file.1 (judge file.2)) ∧
      r.errors = (faults ++ if faults = [] then [] else [.failedFiles faults.length]) ∧
      (Diagnostic.failedFiles faults.length).message =
        s!"{faults.length} file(s) failed to assemble" ∧
      r.exit = (if faults = [] then 0 else 1) ∧
      (faults = [] ↔ ∀ file ∈ files, ∃ count, Judged file.2 (.ok count)) ∧
      r.trace = [] ∧ r.disk = w.disk ∧
      ∀ content verdict, judge content = verdict ↔ Judged content verdict := by
  have hsearch : w.disk.searchAll (files.map Prod.fst) = .ok (files.map Prod.fst) := by
    refine Disk.searchAll_of_find fun path hpath => ?_
    obtain ⟨file, hfile, rfl⟩ := List.mem_map.1 hpath
    exact ⟨(hfiles file hfile).1, _, Disk.find_of_read (hfiles file hfile).2⟩
  have hr : executeArguments w args = w.disk.checkFiles (files.map Prod.fst) := by
    simp only [executeArguments, hargs, Command.execute, executeCheck, hsearch]
  have hchecked := hr.trans (Disk.checkFiles_of_read fun file hfile => (hfiles file hfile).2)
  exact ⟨congrArg Report.output hchecked, congrArg Report.errors hchecked, rfl,
    congrArg Report.exit hchecked, faults_eq_nil_iff, congrArg Report.trace hchecked,
    congrArg Report.disk hchecked, judge_eq_iff⟩

/-- A source with an unknown mnemonic that is checked twice counts twice, and does not keep the file
between from being checked. -/
theorem executeArguments_check_mixed :
    let disk : Disk := { nodes := [(["bad.lmc"], .file "LDX".toUTF8),
      (["raw.lmc"], .file ⟨#[255]⟩), (["d", "echo.lmc"], .file "IN\nOUT\nHLT".toUTF8)] }
    let unknown : Diagnostic := .assembly ⟨1, ⟨0, 3⟩, .unknownMnemonic "LDX"⟩
    let r := executeArguments ⟨disk, ⟨false, none⟩, .empty⟩
      ["check", "bad.lmc", "d/echo.lmc", "raw.lmc", "bad.lmc"]
    r.output = "    Checking target bad.lmc\n    Checking target d/echo.lmc\n" ++
        "     Success 3 of 100 mailboxes used\n    Checking target raw.lmc\n" ++
        "    Checking target bad.lmc\n" ∧
      r.errors = [unknown, .notText, unknown, .failedFiles 3] ∧ r.exit = 1 ∧ r.disk = disk := by
  intro disk unknown r
  let files : List (String × ByteArray) := [("bad.lmc", "LDX".toUTF8),
    ("d/echo.lmc", "IN\nOUT\nHLT".toUTF8), ("raw.lmc", ⟨#[255]⟩), ("bad.lmc", "LDX".toUTF8)]
  have hargs : Command.ofArguments? ["check", "bad.lmc", "d/echo.lmc", "raw.lmc", "bad.lmc"] =
      some (.check (files.map Prod.fst)) :=
    (Arguments.ofArguments?_check (List.cons_ne_nil _ _)).2 (by decide +kernel)
  have hfiles : ∀ file ∈ files, Path.IsSpelled file.1 ∧ disk.read file.1 = .ok file.2 := by
    intro file hfile
    simp only [files, List.mem_cons, List.not_mem_nil, or_false] at hfile
    rcases hfile with rfl | rfl | rfl | rfl
    all_goals exact ⟨by decide +kernel, by decide +kernel⟩
  obtain ⟨houtput, herrors, -, hexit, -, -, hdisk, -⟩ :=
    executeArguments_check (w := ⟨disk, ⟨false, none⟩, .empty⟩) hargs hfiles
  have hfaults : (files.filterMap fun file => faultOf? (judge file.2)) =
      [unknown, .notText, unknown] := by decide +kernel
  rw [hfaults] at herrors hexit
  exact ⟨houtput.trans (by decide +kernel), herrors, hexit, hdisk⟩

end Mailbox
