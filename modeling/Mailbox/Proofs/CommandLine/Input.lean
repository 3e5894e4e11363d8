import Mailbox.Proofs.CommandLine.Arguments
import Mailbox.Proofs.CommandLine.Run
import Mailbox.Proofs.Session.Sources
set_option autoImplicit false

/-!
# Values on the command line and on standard input

A program gets its values from the command line, with commas between them, or else from the lines
of standard input.  Main statement: a run with plain values on the command line leaves the same
report behind as a run with these values on standard input.

Normative source: SPEC_FULL.md, section A6.8.
-/

namespace Mailbox

open Arguments

variable {values : List String} {text : String}

/-- Plain values give the same report whether they are an option of a run or the lines of standard
input. -/
theorem executeRun_input (hne : values ≠ []) (h : ∀ v ∈ values, Input.IsPlain v)
    (hlines : Input.OnLines values text) (disk : Disk) (settings : Settings) (stdin : ByteArray)
    (path : String) (options : RunOptions) :
    executeRun ⟨disk, settings, stdin⟩ path { options with input := some (",".intercalate values) } =
      executeRun ⟨disk, settings, text.toUTF8⟩ path { options with input := none } := by
  simp only [executeRun, Launch.prepare, Surroundings.sessionOptions,
    Input.ofArgument_eq_ofBytes hne h hlines]

/-- Plain values in an option that is put between the arguments for running a program give the same
report as these arguments alone with the values on the lines of standard input.  The arguments in
front of the option have to be complete. -/
theorem executeArguments_input {front rest : List String} {given : Given} {path : String}
    {options : RunOptions} (hne : values ≠ []) (h : ∀ v ∈ values, Input.IsPlain v)
    (hlines : Input.OnLines values text) (hdashes : "--" ∉ front)
    (hfront : read runForm .empty front = .ok given)
    (hrun : Command.ofArguments? ("run" :: (front ++ rest)) = some (.run path options))
    (hnone : options.input = none) (disk : Disk) (settings : Settings) (stdin : ByteArray) :
    executeArguments ⟨disk, settings, stdin⟩
        ("run" :: (front ++ ("--input=" ++ ",".intercalate values) :: rest)) =
      executeArguments ⟨disk, settings, text.toUTF8⟩ ("run" :: (front ++ rest)) := by
  have hoptions : { options with input := none } = options := by
    rw [← hnone]
  simp only [executeArguments, hrun, ofArguments?_run_input hdashes hfront hrun hnone,
    Command.execute]
  rw [executeRun_input hne h hlines, hoptions]

theorem executeArguments_input_copy :
    let disk : Disk := { nodes := [(["copy.lmc"], .file "IN\nOUT\nINA\nOTA\nHLT".toUTF8)] }
    let argued := executeArguments ⟨disk, ⟨false, none⟩, .empty⟩
      ["run", "copy.lmc", "--input=-7,x", "--minimal"]
    let piped := executeArguments ⟨disk, ⟨false, none⟩, "-7\r\nx".toUTF8⟩
      ["run", "copy.lmc", "--minimal"]
    argued = piped ∧ piped.exit = 0 ∧ piped.output = "-7\nx" := by
  intro disk argued piped
  have hplain : ∀ v ∈ ["-7", "x"], Input.IsPlain v := by
    intro v hv
    simp only [List.mem_cons, List.not_mem_nil, or_false] at hv
    rcases hv with rfl | rfl <;> constructor <;> decide
  have hlines : Input.OnLines ["-7", "x"] "-7\r\nx" := .cons .returned (.unended "x")
  have hfront : read runForm .empty ["copy.lmc"] = .ok ⟨[], #["copy.lmc"]⟩ := rfl
  have hrun : Command.ofArguments? ("run" :: (["copy.lmc"] ++ ["--minimal"])) =
      some (.run "copy.lmc" ⟨none, true, false, none⟩) := by decide +kernel
  have hsame : argued = piped :=
    executeArguments_input (List.cons_ne_nil _ _) hplain hlines (by decide) hfront hrun rfl disk
      ⟨false, none⟩ .empty
  exact ⟨hsame, by decide +kernel, by decide +kernel⟩

end Mailbox
