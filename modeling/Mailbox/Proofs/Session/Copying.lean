import Mailbox.Assembly.Program
import Mailbox.Proofs.Machine.Writes
import Mailbox.Proofs.Session.Answers
import Mailbox.Proofs.Session.Refinement
set_option autoImplicit false

/-!
# Copying loops

A program of three mailboxes that asks for a value, puts it out and starts again, for numbers or for
characters.  Main statement: run over the decimal texts of any numbers, or over any characters, such
a program writes exactly these, and fails when there are no more.
-/

namespace Mailbox

/-! ## Media -/

/-- What a program reads and puts out. -/
inductive Medium where
  | number
  | char
  deriving DecidableEq, Repr

namespace Medium

/-- The instruction that asks for a value. -/
def request : Medium → Instruction
  | .number => .input
  | .char => .inputChar

/-- The status of a machine that asks for a value. -/
def asking : Medium → Status
  | .number => .awaitingNumber
  | .char => .awaitingChar

/-- The instruction that puts a value out. -/
def delivery : Medium → Instruction
  | .number => .output
  | .char => .outputChar

/-- The status of a machine that has put out a value. -/
def delivering : Medium → Status
  | .number => .producedNumber
  | .char => .producedChar

/-- What is written of a word that is put out. -/
def item (medium : Medium) (w : Word) : Item :=
  match medium with
  | .number => .number w
  | .char => .char w.glyph

/-- The failure of a run that has no value to give. -/
def shortage : Medium → InputFault
  | .number => .noNumber
  | .char => .noCharacter

theorem execute_request (medium : Medium) (m : Machine) :
    m.execute medium.request = { m with status := medium.asking } := by
  cases medium <;> rfl

theorem execute_delivery (medium : Medium) (m : Machine) :
    m.execute medium.delivery =
      { m with status := medium.delivering, pc := m.pc + 1, io := m.acc } := by
  cases medium <;> rfl

theorem isReady_delivering (medium : Medium) {memory : Image} {pc : Nat} {acc io : Word} :
    (⟨memory, pc, acc, medium.delivering, io⟩ : Machine).isReady := by
  cases medium <;> rfl

end Medium

/-- A program asks for a value, puts it out, and starts again. -/
structure Image.Copies (image : Image) (medium : Medium) : Prop where
  request : Instruction.decode? (image.read 0) = some medium.request
  delivery : Instruction.decode? (image.read 1) = some medium.delivery
  back : Instruction.decode? (image.read 2) = some (.branch 0)

namespace Machine

/-- The next step is the first of a round. -/
structure StartsRound (m : Machine) (medium : Medium) : Prop where
  copies : m.memory.Copies medium
  isReady : m.isReady
  pc_eq : m.pc = 0

variable {m : Machine} {medium : Medium}

theorem StartsRound.current?_eq (h : m.StartsRound medium) : m.current? = some medium.request :=
  current?_of_decode? (a := 0) h.isReady h.pc_eq h.copies.request

/-- Once it is given a value, a machine puts it out and starts the next round. -/
theorem StartsRound.round (h : m.StartsRound medium) (value : Word) :
    (m.step.accept value).current? = some medium.delivery ∧
      (m.step.accept value).step.step = ⟨m.memory, 0, value, .running, value⟩ := by
  have hserved : m.step.accept value = ⟨m.memory, 1, value, .running, value⟩ := by
    rw [step_of_current? h.current?_eq, medium.execute_request, accept, h.pc_eq]
  have hdelivery : (m.step.accept value).current? = some medium.delivery := by
    rw [hserved]
    exact current?_of_decode? (a := 1) rfl rfl h.copies.delivery
  have hdelivered : (m.step.accept value).step =
      ⟨m.memory, 2, value, medium.delivering, value⟩ := by
    rw [step_of_current? hdelivery, medium.execute_delivery, hserved]
  have hback : (m.step.accept value).step.current? = some (.branch 0) := by
    rw [hdelivered]
    exact current?_of_decode? (a := 2) medium.isReady_delivering rfl h.copies.back
  refine ⟨hdelivery, ?_⟩
  rw [step_of_current? hback, hdelivered]
  rfl

end Machine

/-! ## Values that are asked for -/

namespace Session

variable {s : Session} {medium : Medium} {supply : Supply} {rest : List Supply} {value : Word}

/-- Gives the machine a value to go on with. -/
def supplyValue (s : Session) : Medium → Session × Option Outcome
  | .number => s.supplyNumber
  | .char => s.supplyChar

/-- The session whose machine has been given a value, with others left. -/
def served (s : Session) (value : Word) (rest : List Supply) : Session :=
  { s with input := ⟨rest⟩, machine := s.machine.accept value }

/-- A minimal session echoes nothing. -/
theorem write_echo_of_minimal (h : s.transcript.minimal) (text : String) :
    s.write (.echo text) = s := by
  have hecho : s.transcript.write (.echo text) = s.transcript := if_pos h
  rw [write, hecho]

/-- A minimal session whose machine asks for a value gives it the one that answers. -/
theorem supplyValue_of_answers (hminimal : s.transcript.minimal)
    (hstatus : s.machine.status = medium.asking) (hwaiting : s.input.waiting = supply :: rest)
    (hanswers : supply.Answers medium.asking value) :
    s.supplyValue medium = (s.served value rest, none) := by
  have hecho : ∀ text, (s.served value rest).write (.echo text) = s.served value rest :=
    write_echo_of_minimal hminimal
  cases medium with
  | number =>
    have hread : s.input.readNumber = (.ok value, ⟨rest⟩) := by
      rw [Input.readNumber_of_cons hwaiting, Supply.number_eq_ok_iff.2 hanswers]
    exact (supplyNumber_of_ok hstatus hread).trans (congrArg (·, none) (hecho _))
  | char =>
    cases hanswers with
    | @char text c hchar =>
      have hread : s.input.readChar = (.ok c, ⟨rest⟩) := by
        rw [Input.readChar_of_cons hwaiting, Supply.character_eq_ok_iff.2 ⟨text, rfl, hchar⟩]
      exact (supplyChar_of_ok hstatus hread).trans (congrArg (·, none) (hecho _))

theorem supplyValue_of_nil (hwaiting : s.input.waiting = []) :
    s.supplyValue medium = (s, some (.failed (.input medium.shortage))) := by
  cases medium with
  | number => exact supplyNumber_of_error (Input.readNumber_of_nil hwaiting)
  | char => exact supplyChar_of_error (Input.readChar_of_nil hwaiting)

/-! ## Passes of a loop -/

/-- A pass of a minimal session over a request gives the machine a value. -/
theorem pass_of_request (hlimit : s.limit = none) (hminimal : s.transcript.minimal)
    (h : s.machine.current? = some medium.request) :
    s.step.machine.status = medium.asking ∧ s.pass = s.step.supplyValue medium := by
  have hstatus : s.step.machine.status = medium.asking := by
    have hstep : s.step.machine = s.machine.execute medium.request := Machine.step_of_current? h
    rw [hstep, medium.execute_request]
  have hannounce : s.step.announce = s.step := announce_of_minimal hminimal
  refine ⟨hstatus, ?_⟩
  rw [pass_of_no_limit hlimit, respond, hstatus, hannounce]
  cases medium <;> rfl

/-- A pass over a delivery writes the accumulator. -/
theorem pass_of_delivery (hlimit : s.limit = none)
    (h : s.machine.current? = some medium.delivery) :
    s.pass = (s.step.write (medium.item s.machine.acc), none) := by
  have hmachine : s.step.machine = s.machine.execute medium.delivery := Machine.step_of_current? h
  rw [pass_of_no_limit hlimit, respond, hmachine]
  cases medium with
  | number => rfl
  | char =>
    have hglyph : charOfCode (s.machine.execute .outputChar).outputChar? = s.machine.acc.glyph :=
      charOfCode_toCode? s.machine.acc
    exact congrArg (fun c => (s.step.write (.char c), none)) hglyph

theorem pass_of_running (hlimit : s.limit = none) (h : s.machine.step.status = .running) :
    s.pass = (s.step, none) := by
  have hstatus : s.step.machine.status = .running := h
  rw [pass_of_no_limit hlimit, respond, hstatus]

/-! ## Rounds -/

/-- A minimal session without a limit is about to start a round. -/
structure AtLoop (s : Session) (medium : Medium) : Prop where
  startsRound : s.machine.StartsRound medium
  limit_eq : s.limit = none
  minimal : s.transcript.minimal

/-- The session after a round: it has been given a value, has written it, and has branched back. -/
def rounded (s : Session) (medium : Medium) (value : Word) (rest : List Supply) : Session :=
  ((s.step.served value rest).step.write (medium.item value)).step

theorem AtLoop.machine_rounded (h : s.AtLoop medium) (value : Word) (rest : List Supply) :
    (s.rounded medium value rest).machine = ⟨s.machine.memory, 0, value, .running, value⟩ :=
  (h.startsRound.round value).2

/-- A round takes three passes. -/
theorem AtLoop.runFor_three (h : s.AtLoop medium) (hwaiting : s.input.waiting = supply :: rest)
    (hanswers : supply.Answers medium.asking value) :
    s.runFor 3 = (s.rounded medium value rest, none) := by
  have hrequested : s.pass = (s.step.served value rest, none) := by
    obtain ⟨hstatus, hpass⟩ := pass_of_request h.limit_eq h.minimal h.startsRound.current?_eq
    rw [hpass, supplyValue_of_answers (s := s.step) h.minimal hstatus hwaiting hanswers]
  have hdelivered : (s.step.served value rest).pass =
      ((s.step.served value rest).step.write (medium.item value), none) :=
    pass_of_delivery (s := s.step.served value rest) h.limit_eq (h.startsRound.round value).1
  have hreturned : ((s.step.served value rest).step.write (medium.item value)).pass =
      (s.rounded medium value rest, none) :=
    pass_of_running (s := (s.step.served value rest).step.write (medium.item value)) h.limit_eq
      (congrArg Machine.status (h.machine_rounded value rest))
  rw [runFor_succ_of_none hrequested, runFor_succ_of_none hdelivered, runFor_one, hreturned]

/-- After a round, the next one can start. -/
theorem AtLoop.rounded (h : s.AtLoop medium) (value : Word) (rest : List Supply) :
    (s.rounded medium value rest).AtLoop medium := by
  have hmachine := h.machine_rounded value rest
  refine ⟨⟨?_, ?_, ?_⟩, h.limit_eq, ?_⟩
  · rw [hmachine]
    exact h.startsRound.copies
  · rw [hmachine]
    rfl
  · rw [hmachine]
  · exact (Transcript.minimal_write _ _).trans h.minimal

/-- Rounds write all the values, and the one that finds none fails. -/
theorem AtLoop.runFor {values : List Word} (h : s.AtLoop medium)
    (hanswers : List.Forall₂ (fun supply value => supply.Answers medium.asking value)
      s.input.waiting values) :
    ∃ t, s.runFor (3 * values.length + 1) = (t, some (.failed (.input medium.shortage))) ∧
      t.steps = s.steps + (3 * values.length + 1) ∧
      t.transcript = s.transcript.writeAll (values.map medium.item) := by
  induction values generalizing s with
  | nil =>
    obtain ⟨_, hpass⟩ := pass_of_request h.limit_eq h.minimal h.startsRound.current?_eq
    rw [supplyValue_of_nil (s := s.step) (List.forall₂_nil_right_iff.1 hanswers)] at hpass
    exact ⟨s.step, (runFor_one s).trans hpass, rfl, rfl⟩
  | cons value values ih =>
    obtain ⟨supply, rest, hfirst, hothers, hwaiting⟩ := List.forall₂_cons_right_iff.1 hanswers
    have hround := h.runFor_three hwaiting hfirst
    obtain ⟨t, hrun, hsteps, hwritten⟩ := ih (h.rounded value rest) hothers
    have hcount : 3 * (value :: values).length + 1 = 3 + (3 * values.length + 1) := by
      rw [List.length_cons]
      omega
    refine ⟨t, ?_, ?_, hwritten⟩
    · rw [hcount, runFor_add_of_none hround, hrun]
    · rw [hsteps, steps_of_runFor_eq_none hround, hcount, Nat.add_assoc]

end Session

/-! ## Texts -/

namespace Transcript

theorem text_blank (minimal colored : Bool) : (blank minimal colored).text = "" := rfl

/-- Numbers stand on a line each. -/
theorem text_writeAll_numbers {t : Transcript} (h : t.lineOpen = false) (values : List Word) :
    (t.writeAll (values.map .number)).text =
      t.text ++ String.join (values.map fun value => value.decimal ++ "\n") := by
  induction values generalizing t with
  | nil => simp
  | cons value values ih =>
    have hline : (t.write (.number value)).text = t.text ++ (value.decimal ++ "\n") := by
      simp [write, line, h, String.append_assoc]
    rw [List.map_cons, writeAll_cons, ih rfl, hline, List.map_cons, String.join_cons,
      String.append_assoc]

/-- Characters follow each other. -/
theorem text_writeAll_chars (t : Transcript) (cs : List Char) :
    (t.writeAll (cs.map .char)).text = t.text ++ String.ofList cs := by
  induction cs generalizing t with
  | nil => simp
  | cons c cs ih =>
    have hchar : (t.write (.char c)).text = t.text.push c := rfl
    rw [List.map_cons, writeAll_cons, ih, hchar]
    apply String.toList_injective
    simp

end Transcript

/-! ## Copying programs -/

namespace Session

/-- A session makes a number of steps, fails for a reason, and has written a text by then.  `run`
comes to this end if so many steps can be counted. -/
def FailsAfter (s : Session) (steps : Nat) (fault : SessionFault) (text : String) : Prop :=
  ∃ t, s.Returns t (.failed fault) ∧ t.steps = steps ∧ t.transcript.text = text ∧
    (steps ≤ capacity → s.run = (t, some (.failed fault)))

/-- A minimal session that starts a copying loop over values that answer writes them all. -/
theorem failsAfter_of_copies {image : Image} {medium : Medium} {input : Input}
    {values : List Word} (h : image.Copies medium)
    (hanswers : List.Forall₂ (fun supply value => supply.Answers medium.asking value)
      input.waiting values) (colored tracing : Bool) :
    (start image input ⟨true, colored, tracing, none⟩).FailsAfter (3 * values.length + 1)
      (.input medium.shortage)
      ((Transcript.blank true colored).writeAll (values.map medium.item)).text := by
  have hloop : (start image input ⟨true, colored, tracing, none⟩).AtLoop medium :=
    ⟨⟨h, rfl, rfl⟩, rfl, rfl⟩
  obtain ⟨t, hrun, hsteps, htranscript⟩ := hloop.runFor hanswers
  have hcount : t.steps = 3 * values.length + 1 := hsteps.trans (Nat.zero_add _)
  refine ⟨t, ⟨_, hrun⟩, hcount, congrArg Transcript.text htranscript, fun hle => ?_⟩
  exact (run_eq_some_iff hloop.limit_eq).2 ⟨⟨_, hrun⟩, hcount ▸ hle⟩

end Session

namespace Medium

open Session

/-- The program that copies values. -/
def source : Medium → String
  | .number => "loop IN\nOUT\nBR loop"
  | .char => "loop INA\nOTA\nBR loop"

/-- The mailboxes of the program that copies values. -/
def image : Medium → Image
  | .number => Image.ofList [901, 902, 600]
  | .char => Image.ofList [903, 904, 600]

theorem assemble_source (medium : Medium) :
    Program.assemble medium.source = .ok ⟨medium.image, .ofList [("loop", 0)], 3⟩ := by
  cases medium <;> decide +kernel

theorem copies_image (medium : Medium) : medium.image.Copies medium := by
  cases medium <;> exact ⟨by decide +kernel, by decide +kernel, by decide +kernel⟩

/-- The decimal text of a word answers for the word. -/
theorem answers_decimal (w : Word) : Supply.Answers (.text w.decimal) .awaitingNumber w :=
  .number ⟨[], [], by simp, by simp, by simp⟩ (Grammar.isLiteral_decimal w)

theorem answers_singleton (c : Char) :
    Supply.Answers (.text (String.singleton c)) .awaitingChar (.ofCode c.val) :=
  .char (String.toList_singleton c)

theorem image_copies_numbers (values : List Word) (colored tracing : Bool) :
    (start (image .number) (.ofValues (values.map Word.decimal))
      ⟨true, colored, tracing, none⟩).FailsAfter (3 * values.length + 1) (.input .noNumber)
        (String.join (values.map fun value => value.decimal ++ "\n")) := by
  have hanswers : List.Forall₂ (fun supply value => Supply.Answers supply .awaitingNumber value)
      (Input.ofValues (values.map Word.decimal)).waiting values := by
    rw [Input.ofValues, List.map_map, List.forall₂_map_left_iff]
    exact List.forall₂_same.2 fun value _ => answers_decimal value
  have hfails := failsAfter_of_copies (copies_image .number) hanswers colored tracing
  have hitems : values.map (item .number) = values.map .number := rfl
  rw [hitems, Transcript.text_writeAll_numbers rfl, Transcript.text_blank,
    String.empty_append] at hfails
  exact hfails

theorem image_copies_chars (cs : List Char) (colored tracing : Bool) :
    (start (image .char) (.ofValues (cs.map String.singleton))
      ⟨true, colored, tracing, none⟩).FailsAfter (3 * cs.length + 1) (.input .noCharacter)
        (String.ofList cs) := by
  have hanswers : List.Forall₂ (fun supply value => Supply.Answers supply .awaitingChar value)
      (Input.ofValues (cs.map String.singleton)).waiting (cs.map fun c => .ofCode c.val) := by
    rw [Input.ofValues, List.map_map, List.forall₂_map_left_iff, List.forall₂_map_right_iff]
    exact List.forall₂_same.2 fun c _ => answers_singleton c
  have hfails := failsAfter_of_copies (copies_image .char) hanswers colored tracing
  have hitems : (cs.map fun c => Word.ofCode c.val).map (item .char) = cs.map .char := by
    simp [item, Word.glyph_ofCode_val]
  rw [hitems, Transcript.text_writeAll_chars, Transcript.text_blank, String.empty_append,
    List.length_map] at hfails
  exact hfails

end Medium

open Session in
/-- Values pass through the computer unchanged: the programs that copy numbers and characters write
all that they are given, and then fail because there is no more input. -/
theorem Program.loops_copy_input (colored tracing : Bool) :
    (∃ p, assemble "loop IN\nOUT\nBR loop" = .ok p ∧ ∀ values : List Word,
      (start p.image (.ofValues (values.map Word.decimal)) ⟨true, colored, tracing, none⟩).FailsAfter
        (3 * values.length + 1) (.input .noNumber)
        (String.join (values.map fun value => value.decimal ++ "\n"))) ∧
    ∃ p, assemble "loop INA\nOTA\nBR loop" = .ok p ∧ ∀ cs : List Char,
      (start p.image (.ofValues (cs.map String.singleton)) ⟨true, colored, tracing, none⟩).FailsAfter
        (3 * cs.length + 1) (.input .noCharacter) (String.ofList cs) :=
  ⟨⟨_, Medium.assemble_source .number,
      fun values => Medium.image_copies_numbers values colored tracing⟩,
    ⟨_, Medium.assemble_source .char, fun cs => Medium.image_copies_chars cs colored tracing⟩⟩

end Mailbox
