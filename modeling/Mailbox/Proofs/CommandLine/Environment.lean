import Mailbox.Proofs.CommandLine.Arguments
import Mailbox.Proofs.CommandLine.Exit
import Mailbox.Proofs.Session.Answers
set_option autoImplicit false

/-!
# The environment of a run

A limit on the steps, and the wish for a trace, come from options or from the environment.  Main
statement: either way a run leaves the same report behind, whatever else the environment says, and
a text that says neither counts as none.

Normative source: SPEC_FULL.md, section A4 (flags win over environment).
-/

namespace Mailbox

open Arguments

namespace Arguments

variable {args : List String} {given : Given}

/-! ## Running with a limit -/

/-- The option to limit the number of steps, among those for running a program. -/
def limitOption : OptionName := ⟨"limit", 'l', .count⟩

/-- The ways to give a limit on the command line. -/
def limitFlags (numeral : String) : List (List String) :=
  [["--limit", numeral], ["--limit=" ++ numeral], ["-l", numeral], ["-l=" ++ numeral],
    ["-l" ++ numeral]]

theorem runOptions_of_adds_limit {more : Given} {value : String}
    (h : given.Adds "limit" value more) :
    more.runOptions = { given.runOptions with limit := Text.readCount? value.toList } := by
  simp only [Given.runOptions, h.value?_self]
  rw [h.value?_of_ne (by decide), h.value?_of_ne (by decide), h.value?_of_ne (by decide)]
  rfl

/-- Only a count is taken for a limit. -/
theorem kept_limit : Kept runForm fun given =>
    ∀ value, given.value? "limit" = some value → (Text.readCount? value.toList).isSome where
  addOption {given after o value} ho hadd hgiven := by
    obtain ⟨-, hkind, rfl⟩ := Given.addOption_eq_ok_iff.1 hadd
    intro other hother
    rw [Given.value?_cons] at hother
    split at hother
    · rename_i hname
      obtain rfl := Option.some.inj hother
      refine hkind ?_
      simp only [runForm, List.mem_cons, List.not_mem_nil, or_false] at ho
      rcases ho with rfl | rfl | rfl | rfl
      · exact absurd hname (by decide)
      · exact absurd hname (by decide)
      · exact absurd hname (by decide)
      · rfl
    · exact hgiven other hother
  addOther hadd hgiven := by
    obtain rfl := Given.addOther_eq_ok hadd
    exact hgiven

/-- A run without a limit is one for which none is given. -/
theorem value?_limit_eq_none (hread : read runForm .empty args = .ok given)
    (hnone : given.runOptions.limit = none) : given.value? "limit" = none := by
  cases hvalue : given.value? "limit" with
  | none => rfl
  | some value =>
    have hcount := kept_limit.read hread nofun value hvalue
    have hlimit : Text.readCount? value.toList = none := by
      rwa [Given.runOptions, hvalue] at hnone
    rw [hlimit] at hcount
    cases hcount

section

variable {numeral : String} {n : Nat} (hcount : Grammar.IsCount numeral.toList n)

include hcount

/-- A count may be the argument behind an option, for it is no option itself. -/
theorem isOption_of_isCount : isOption numeral = false := by
  obtain ⟨c, ds, hnumeral, hc⟩ := hcount.exists_cons
  have hdash : c ≠ '-' := by
    rintro rfl
    exact absurd hc (by decide)
  unfold isOption
  rw [hnumeral]
  split
  · rename_i heq
    exact absurd (List.cons.inj heq).1 hdash
  · rfl

/-- A count may stand right behind the letter of an option. -/
theorem head?_ne_of_isCount : numeral.toList ≠ [] ∧ numeral.toList.head? ≠ some '=' := by
  obtain ⟨c, ds, hnumeral, hc⟩ := hcount.exists_cons
  rw [hnumeral]
  refine ⟨List.cons_ne_nil _ _, fun heq => ?_⟩
  rw [Option.some.inj heq] at hc
  exact absurd hc (by decide)

theorem gives_of_mem_limitFlags {flag : List String} (h : flag ∈ limitFlags numeral) :
    Gives runForm flag limitOption numeral := by
  have hvalue := isOption_of_isCount hcount
  have hhead := head?_ne_of_isCount hcount
  -- Behind the letter the value stands with an equals sign or without.
  have hletter {arg : String} {cs : List Char} (harg : arg.toList = '-' :: 'l' :: cs)
      (hcs : cs = '=' :: numeral.toList ∨ cs = numeral.toList) (given : Given) :
      readOne runForm given arg = (given.addOption limitOption numeral).map (·, none) := by
    rw [readOne_letters harg (by decide), ← String.ofList_toList (s := numeral)]
    exact readLetters_value (o := limitOption) (by decide) rfl rfl
      (hcs.imp_right fun heq => ⟨heq, hhead⟩) given
  simp only [limitFlags, List.mem_cons, List.not_mem_nil, or_false] at h
  rcases h with rfl | rfl | rfl | rfl | rfl
  · exact gives_of_waiting (by decide) (fun _ => rfl) hvalue
  · refine gives_of_readOne (by simp [← String.toList_inj]) fun given => ?_
    exact readOne_long (o := limitOption) (by decide) rfl rfl given numeral
  · exact gives_of_waiting (by decide) (fun _ => rfl) hvalue
  · exact gives_of_readOne (by simp [← String.toList_inj]) (hletter (by simp) (.inl rfl))
  · have hne : numeral ≠ "" := by simpa using hhead.1
    exact gives_of_readOne (by simp [← String.toList_inj, hne]) (hletter (by simp) (.inr rfl))

/-- A limit that is put between the arguments for running a program is its limit, and nothing else
changes. -/
theorem ofArguments?_run_limitFlag {flag front rest : List String} {path : String}
    {options : RunOptions} (hflag : flag ∈ limitFlags numeral) (hdashes : "--" ∉ front)
    (hfront : read runForm .empty front = .ok given)
    (h : Command.ofArguments? ("run" :: (front ++ rest)) = some (.run path options))
    (hnone : options.limit = none) :
    Command.ofArguments? ("run" :: (front ++ (flag ++ rest))) =
      some (.run path { options with limit := some n }) := by
  have hvalue : Text.readCount? numeral.toList = some n :=
    (Grammar.readCount?_eq_some_iff_isCount _ n).2 hcount
  have hkind : Option.isSome (Text.readCount? numeral.toList) := by
    rw [hvalue]
    rfl
  obtain ⟨final, more, rfl, hadds, hread⟩ :=
    ofArguments?_run_option (gives_of_mem_limitFlags hcount hflag) (fun _ => hkind) hdashes
      hfront h fun final hfinal hoptions => value?_limit_eq_none hfinal (hoptions ▸ hnone)
  rw [hread, runOptions_of_adds_limit hadds, hvalue]

end

end Arguments

/-! ## Texts of the environment -/

namespace Settings

/-- A text that stands for a limit: a numeral of a positive count, with white space around it. -/
def Limits (text : String) (n : Nat) : Prop :=
  0 < n ∧ ∃ numeral, Text.IsPadded text.toList numeral ∧ Grammar.IsCount numeral n

theorem limitOfText?_eq_some_iff (text : String) (n : Nat) :
    limitOfText? text = some n ↔ Limits text n := by
  rw [limitOfText?, Option.filter_eq_some_iff, Grammar.readCount?_eq_some_iff_isCount,
    decide_eq_true_eq]
  constructor
  · rintro ⟨hcount, hpos⟩
    exact ⟨hpos, _, Text.isPadded_trimList _, hcount⟩
  · rintro ⟨hpos, numeral, hpadded, hcount⟩
    obtain ⟨c, ds, hnumeral, _⟩ := hcount.exists_cons
    have htrim := hpadded.trimList_eq (hnumeral ▸ List.cons_ne_nil c ds) fun c hc =>
      isSpace_of_isWordChar (hcount.isWordChar c hc)
    rw [htrim]
    exact ⟨hcount, hpos⟩

/-- A text that stands for no limit is as good as none. -/
theorem ofTexts_of_no_limit {text : String} (h : ∀ n, ¬ Limits text n) (tracing : Option String) :
    ofTexts tracing (some text) = ofTexts tracing none := by
  have hnone : limitOfText? text = none :=
    Option.eq_none_iff_forall_ne_some.2 fun n hn => h n ((limitOfText?_eq_some_iff text n).1 hn)
  simp only [ofTexts, Option.bind_some, Option.bind_none, hnone]

/-- Any text but `1` is as good as none for the trace. -/
theorem ofTexts_of_no_trace {tracing : Option String} (h : tracing ≠ some "1")
    (limit : Option String) : ofTexts tracing limit = ofTexts none limit := by
  simp only [ofTexts, beq_false_of_ne h]
  rfl

end Settings

/-! ## Runs -/

/-- A run depends on its surroundings and its options through the disk, the values, the limit and
whether to keep a trace. -/
theorem executeRun_congr {w w' : Surroundings} {options options' : RunOptions}
    (hdisk : w.disk = w'.disk) (hinput : w.input options = w'.input options')
    (hminimal : options.minimal = options'.minimal)
    (htracing : (options.tracing || w.settings.tracing) =
      (options'.tracing || w'.settings.tracing))
    (hlimit : w.limit? options = w'.limit? options') (path : String) :
    executeRun w path options = executeRun w' path options' := by
  have hsession (image : Image) : w.session image options = w'.session image options' := by
    rw [Surroundings.session_eq_start, Surroundings.session_eq_start, hinput, hminimal, htracing,
      hlimit]
  cases hload : w.disk.load path with
  | error e =>
    rw [executeRun_of_load_error hload, executeRun_of_load_error (hdisk ▸ hload), hdisk, hminimal]
  | ok program =>
    rw [executeRun_of_load hload, executeRun_of_load (hdisk ▸ hload), Surroundings.runReport,
      Surroundings.runReport, hsession, hdisk, hminimal]

/-- A limit may be given by an option between the arguments for running a program, or by the
environment.  The option goes before the environment, and so does the one to keep a trace.  A text
in the environment that is no limit, or that is not `1` for the trace, counts as none, whatever the
arguments are.  Those in front of an option have to be complete. -/
theorem executeArguments_environment {front rest : List String} {given : Given} {path : String}
    {options : RunOptions} (hdashes : "--" ∉ front)
    (hfront : read runForm .empty front = .ok given)
    (hrun : Command.ofArguments? ("run" :: (front ++ rest)) = some (.run path options))
    (disk : Disk) (stdin : ByteArray) :
    let report (tracing limit : Option String) (args : List String) : Report :=
      executeArguments ⟨disk, .ofTexts tracing limit, stdin⟩ args
    let plain := "run" :: (front ++ rest)
    let withFlag (flag : List String) := "run" :: (front ++ (flag ++ rest))
    (options.limit = none → ∀ (numeral text : String) (n : Nat),
      Grammar.IsCount numeral.toList n → Settings.Limits text n →
        ∀ flag ∈ limitFlags numeral, ∀ tracing limit,
          report tracing limit (withFlag flag) = report tracing (some text) plain) ∧
    (options.tracing = false → ∀ flag ∈ traceFlags, ∀ tracing limit,
      report tracing limit (withFlag flag) = report (some "1") limit plain) ∧
    (∀ text, (∀ n, ¬ Settings.Limits text n) → ∀ tracing args,
      report tracing (some text) args = report tracing none args) ∧
    ∀ tracing, tracing ≠ some "1" → ∀ limit args,
      report tracing limit args = report none limit args := by
  intro report plain withFlag
  refine ⟨fun hnone numeral text n hcount hlimits flag hflag tracing limit => ?_,
    fun hnone flag hflag tracing limit => ?_, fun text htext tracing args => ?_,
    fun tracing htracing limit args => ?_⟩
  · have htext := (Settings.limitOfText?_eq_some_iff text n).2 hlimits
    simp only [report, withFlag, plain, executeArguments, hrun,
      ofArguments?_run_limitFlag hcount hflag hdashes hfront hrun hnone, Command.execute]
    apply executeRun_congr
    case hlimit => simp [Surroundings.limit?, hnone, Settings.ofTexts, htext]
    all_goals rfl
  · simp only [report, withFlag, plain, executeArguments, hrun,
      ofArguments?_run_traceFlag hflag hdashes hfront hrun hnone, Command.execute]
    apply executeRun_congr
    case htracing => simp [Settings.ofTexts]
    all_goals rfl
  · simp only [report, Settings.ofTexts_of_no_limit htext]
  · simp only [report, Settings.ofTexts_of_no_trace htracing]

/-- A program that jumps to itself is stopped by a limit, and traced, either way. -/
theorem executeArguments_environment_loop :
    let disk : Disk := { nodes := [(["loop.lmc"], .file "x BR x".toUTF8)] }
    let report (tracing limit : Option String) (args : List String) : Report :=
      executeArguments ⟨disk, .ofTexts tracing limit, .empty⟩ args
    let plain := ["run", "loop.lmc", "--minimal"]
    let limited := report (some "0") (some "7") ["run", "loop.lmc", "-l", "12", "--minimal"]
    let traced := report (some "0") (some "2") ["run", "loop.lmc", "-t", "--minimal"]
    limited = report (some "0") (some "\t+0012\n") plain ∧
      limited.errors = [.session (.limitReached 12 0)] ∧
      traced = report (some "1") (some "2") plain ∧ traced.trace.length = 2 ∧
      report none (some "0x7") plain = report none none plain := by
  intro disk report plain limited traced
  have hfront : read runForm .empty ["loop.lmc"] = .ok ⟨[], #["loop.lmc"]⟩ := rfl
  have hrun : Command.ofArguments? ("run" :: (["loop.lmc"] ++ ["--minimal"])) =
      some (.run "loop.lmc" ⟨none, true, false, none⟩) := by decide +kernel
  obtain ⟨hlimit, htrace, hunset, -⟩ :=
    executeArguments_environment (by decide) hfront hrun disk .empty
  have hcount : Grammar.IsCount "12".toList 12 :=
    (Grammar.readCount?_eq_some_iff_isCount _ _).1 (by decide +kernel)
  have hlimits : Settings.Limits "\t+0012\n" 12 :=
    (Settings.limitOfText?_eq_some_iff _ _).1 (by decide +kernel)
  have hno : ∀ n, ¬ Settings.Limits "0x7" n := by
    intro n hn
    have hsome := (Settings.limitOfText?_eq_some_iff _ _).2 hn
    have hnone : Settings.limitOfText? "0x7" = none := by decide +kernel
    rw [hnone] at hsome
    cases hsome
  have hsame : limited = report (some "0") (some "\t+0012\n") plain :=
    hlimit rfl "12" _ 12 hcount hlimits ["-l", "12"] (by decide) (some "0") (some "7")
  have hother : traced = report (some "1") (some "2") plain :=
    htrace rfl ["-t"] (by decide) (some "0") (some "2")
  exact ⟨hsame, by decide +kernel, hother, by decide +kernel, hunset _ hno none plain⟩

end Mailbox
