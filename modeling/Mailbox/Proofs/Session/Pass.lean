import Mailbox.Proofs.Machine.Invariant
import Mailbox.Proofs.Session.Execution
import Mailbox.Session.Basic
set_option autoImplicit false

/-!
# Passes

What one pass of a session comes to: nothing if the limit is reached, and otherwise a turn of an
execution.  Main statements: the two cases of a pass, the reasons for which a run stops, and an
induction that carries a property from one pass to any number of runs.
-/

namespace Mailbox

/-! ## Writing events -/

/-- The character written for a code is the one that the code stands for. -/
theorem charOfCode_toCode? (w : Word) : Session.charOfCode w.toCode? = w.glyph := by
  unfold Word.toCode? Word.glyph
  by_cases hcode : 0 ≤ w.val ∧ w.val < 4294967296
  · have hn : (UInt32.ofNat w.val.toNat).toNat = w.val.toNat := by
      rw [UInt32.toNat_ofNat']
      omega
    have hvalid : (UInt32.ofNat w.val.toNat).isValidChar ↔ w.val.toNat.isValidChar := by
      rw [UInt32.isValidChar, hn]
    rw [if_pos hcode]
    by_cases hv : w.val.toNat.isValidChar
    · have hchar : Session.charOfCode (some (UInt32.ofNat w.val.toNat)) = ⟨_, hvalid.2 hv⟩ :=
        dif_pos (hvalid.2 hv)
      rw [if_pos ⟨hcode.1, hv⟩, Char.ofNat, dif_pos hv, hchar]
      exact Char.ext (UInt32.toNat_inj.1 hn)
    · rw [if_neg fun h => hv h.2]
      exact dif_neg fun h => hv (hvalid.1 h)
  · rw [if_neg hcode, if_neg]
    · rfl
    · intro h
      have hv := h.2
      unfold Nat.isValidChar at hv
      omega

namespace Transcript

/-- A transcript with an event written. -/
def writeEvent (t : Transcript) : Event → Transcript
  | .number value => t.write (.number value)
  | .char code => t.write (.char (Session.charOfCode code.toCode?))
  | .reported status => t.writeStatus status
  | .accepted value => t.write (.echo value)

end Transcript

namespace Session

/-! ## Turns -/

/-- A session after a turn. -/
def turned (s : Session) (choice : Turn × List Supply) : Session :=
  { s.step with
    machine := s.machine.performAll choice.1.operations
    input := ⟨choice.2⟩
    transcript := (s.machine.events choice.1.operations).foldl Transcript.writeEvent s.transcript }

theorem turned_quiet (s : Session) (waiting : List Supply) :
    s.turned (.quiet, waiting) =
      { s.step with
        input := ⟨waiting⟩
        transcript := s.machine.step.report.foldl Transcript.writeEvent s.transcript } := by
  rw [turned, Machine.events_quiet]
  rfl

/-- In a quiet turn, a request for a value is announced and nothing else. -/
theorem turned_quiet_of_isAwaiting {s : Session} (h : s.machine.step.status.isAwaiting)
    (waiting : List Supply) :
    s.turned (.quiet, waiting) = { s.step.announce with input := ⟨waiting⟩ } := by
  rw [turned_quiet, Machine.report_of_isAwaiting h]
  rfl

/-- In any other turn, the value is given and echoed after the announcement. -/
theorem turned_of_accept {s : Session} {turn : Turn} {value : Word} {echo : String}
    (hmachine : s.machine.performAll turn.operations = s.machine.step.accept value)
    (hevents : s.machine.events turn.operations =
      [.reported s.machine.step.status, .accepted echo]) (waiting : List Supply) :
    s.turned (turn, waiting) =
      { s.step.announce with
        input := ⟨waiting⟩
        machine := s.machine.step.accept value }.write (.echo echo) := by
  rw [turned, hmachine, hevents]
  rfl

/-- A step that asks for nothing, and the response to it, are a quiet turn. -/
theorem respond_step_of_not_isAwaiting {s : Session} (h : s.machine.step.Invariant)
    (ha : s.machine.step.status.isAwaiting = false) :
    s.step.respond.1 = s.turned (.quiet, s.input.waiting) := by
  have hmachine : s.step.machine = s.machine.step := rfl
  rw [turned_quiet]
  unfold respond Machine.report announce
  rw [hmachine]
  cases hs : s.machine.step.status with
  | running => rfl
  | producedNumber =>
    have hnumber := h.outputNumber?_eq
    rw [if_pos hs] at hnumber
    simp only [hnumber]
    rfl
  | producedChar =>
    have hfits := h.statusFits
    unfold Machine.StatusFits at hfits
    rw [hs] at hfits
    have hchar : s.machine.step.outputChar? = s.machine.step.acc.toCode? := by
      rw [Machine.outputChar?, if_pos hs, hfits.2.2]
    simp only [hchar]
    rfl
  | halted => rfl
  | endOfMemory => rfl
  | invalidInstruction => rfl
  | awaitingNumber => rw [hs] at ha; exact absurd ha (by decide)
  | awaitingChar => rw [hs] at ha; exact absurd ha (by decide)

/-! ## Values -/

theorem supplyNumber_of_error {s : Session} {cause : InputFault} {rest : Input}
    (hr : s.input.readNumber = (.error cause, rest)) :
    s.supplyNumber = ({ s with input := rest }, some (.failed (.input cause))) := by
  simp only [supplyNumber, hr]

/-- A machine that waits for a number takes it. -/
theorem supplyNumber_of_ok {s : Session} {value : Word} {rest : Input}
    (h : s.machine.status = .awaitingNumber) (hr : s.input.readNumber = (.ok value, rest)) :
    s.supplyNumber =
      ({ s with input := rest, machine := s.machine.accept value }.write (.echo value.decimal),
        none) := by
  have haccept : s.machine.inputNumber value = .ok (s.machine.accept value) := by
    rw [Machine.inputNumber, if_pos h]
  simp only [supplyNumber, hr, haccept]

theorem supplyChar_of_error {s : Session} {cause : InputFault} {rest : Input}
    (hr : s.input.readChar = (.error cause, rest)) :
    s.supplyChar = ({ s with input := rest }, some (.failed (.input cause))) := by
  simp only [supplyChar, hr]

/-- A machine that waits for a character takes it. -/
theorem supplyChar_of_ok {s : Session} {c : Char} {rest : Input}
    (h : s.machine.status = .awaitingChar) (hr : s.input.readChar = (.ok c, rest)) :
    s.supplyChar =
      ({ s with input := rest, machine := s.machine.accept (.ofCode c.val) }.write
        (.echo (String.singleton c)), none) := by
  have haccept : s.machine.inputChar c.val = .ok (s.machine.accept (.ofCode c.val)) := by
    rw [Machine.inputChar, if_pos h]
  simp only [supplyChar, hr, haccept]

theorem supplyNumber_announce {s : Session} (h : s.machine.step.status = .awaitingNumber) :
    s.step.announce.supplyNumber.1 = s.turned (Turn.choose .awaitingNumber s.input.waiting) := by
  have ha : s.machine.step.status.isAwaiting := by rw [h]; rfl
  rw [Turn.choose_number]
  rcases hr : s.input.readNumber with ⟨result, rest⟩
  have hread : s.step.announce.input.readNumber = (result, rest) := hr
  cases result with
  | error cause =>
    rw [supplyNumber_of_error hread]
    exact (turned_quiet_of_isAwaiting ha rest.waiting).symm
  | ok value =>
    rw [supplyNumber_of_ok h hread]
    exact (turned_of_accept (Machine.performAll_number h value) (Machine.events_number h value)
      rest.waiting).symm

theorem supplyChar_announce {s : Session} (h : s.machine.step.status = .awaitingChar) :
    s.step.announce.supplyChar.1 = s.turned (Turn.choose .awaitingChar s.input.waiting) := by
  have ha : s.machine.step.status.isAwaiting := by rw [h]; rfl
  rw [Turn.choose_char]
  rcases hr : s.input.readChar with ⟨result, rest⟩
  have hread : s.step.announce.input.readChar = (result, rest) := hr
  cases result with
  | error cause =>
    rw [supplyChar_of_error hread]
    exact (turned_quiet_of_isAwaiting ha rest.waiting).symm
  | ok c =>
    rw [supplyChar_of_ok h hread]
    exact (turned_of_accept (Machine.performAll_char h c) (Machine.events_char h c)
      rest.waiting).symm

/-- A step of a session and the response to it are a turn. -/
theorem respond_step {s : Session} (h : s.machine.step.Invariant) :
    s.step.respond.1 = s.turned (Turn.choose s.machine.step.status s.input.waiting) := by
  cases ha : s.machine.step.status.isAwaiting with
  | false => rw [respond_step_of_not_isAwaiting h ha, Turn.choose_of_not_isAwaiting ha]
  | true =>
    have hmachine : s.step.machine.status = s.machine.step.status := rfl
    unfold respond
    rw [hmachine]
    cases hs : s.machine.step.status with
    | awaitingNumber => exact supplyNumber_announce hs
    | awaitingChar => exact supplyChar_announce hs
    | _ => rw [hs] at ha; exact absurd ha (by decide)

/-! ## Passes -/

/-- A pass makes a step and responds to it, unless the limit is reached. -/
theorem pass_cases (s : Session) :
    (∃ limit, s.limit = some limit ∧ limit ≤ s.steps ∧
        s.pass = (s, some (.failed (.limitReached limit s.machine.pc)))) ∨
      (∀ limit ∈ s.limit, s.steps < limit) ∧ s.pass = s.step.respond := by
  unfold pass exhaustedLimit?
  cases hlimit : s.limit.filter fun limit => limit ≤ s.steps with
  | some limit =>
    obtain ⟨hsome, hle⟩ := Option.filter_eq_some_iff.1 hlimit
    exact Or.inl ⟨limit, hsome, by simpa using hle, rfl⟩
  | none =>
    refine Or.inr ⟨fun limit hl => ?_, rfl⟩
    simpa using Option.filter_eq_none_iff.1 hlimit limit hl

theorem steps_respond (s : Session) : s.respond.1.steps = s.steps := by
  have hannounce : s.announce.steps = s.steps := rfl
  unfold respond
  cases hs : s.machine.status with
  | awaitingNumber =>
    rcases hr : s.announce.input.readNumber with ⟨result, rest⟩
    cases result with
    | error cause => simp [supplyNumber_of_error hr, hannounce]
    | ok value => simp [supplyNumber_of_ok (s := s.announce) hs hr, write, hannounce]
  | awaitingChar =>
    rcases hr : s.announce.input.readChar with ⟨result, rest⟩
    cases result with
    | error cause => simp [supplyChar_of_error hr, hannounce]
    | ok c => simp [supplyChar_of_ok (s := s.announce) hs hr, write, hannounce]
  | _ => rfl

/-! ## Stops -/

/-- Why a run stops where it does. -/
def Stopped (s : Session) : Outcome → Prop
  | .ended status => s.machine.status = status ∧ status.isTerminal
  | .failed (.limitReached limit pc) => s.limit = some limit ∧ limit ≤ s.steps ∧ pc = s.machine.pc
  | .failed (.input _) => s.machine.status.isAwaiting
  | .failed (.refused _) => False

theorem stopped_supplyNumber {s : Session} (h : s.machine.status = .awaitingNumber) :
    ∀ outcome ∈ s.supplyNumber.2, s.supplyNumber.1.Stopped outcome := by
  rcases hr : s.input.readNumber with ⟨result, rest⟩
  cases result with
  | error cause => simp [supplyNumber_of_error hr, Stopped, h, Status.isAwaiting]
  | ok value => simp [supplyNumber_of_ok h hr]

theorem stopped_supplyChar {s : Session} (h : s.machine.status = .awaitingChar) :
    ∀ outcome ∈ s.supplyChar.2, s.supplyChar.1.Stopped outcome := by
  rcases hr : s.input.readChar with ⟨result, rest⟩
  cases result with
  | error cause => simp [supplyChar_of_error hr, Stopped, h, Status.isAwaiting]
  | ok c => simp [supplyChar_of_ok h hr]

theorem stopped_respond (s : Session) : ∀ outcome ∈ s.respond.2, s.respond.1.Stopped outcome := by
  have hannounce : s.announce.machine = s.machine := rfl
  unfold respond
  cases hs : s.machine.status with
  | running => simp
  | producedNumber => simp
  | producedChar => simp
  | awaitingNumber => exact stopped_supplyNumber (hannounce ▸ hs)
  | awaitingChar => exact stopped_supplyChar (hannounce ▸ hs)
  | halted => simp [Stopped, hannounce, hs, Status.isTerminal]
  | endOfMemory => simp [Stopped, hannounce, hs, Status.isTerminal]
  | invalidInstruction => simp [Stopped, hannounce, hs, Status.isTerminal]

theorem stopped_pass (s : Session) : ∀ outcome ∈ s.pass.2, s.pass.1.Stopped outcome := by
  rcases pass_cases s with ⟨limit, hlimit, hle, hpass⟩ | ⟨_, hpass⟩
  · rw [hpass]
    intro outcome ho
    obtain rfl := Option.some.inj ho
    exact ⟨hlimit, hle, rfl⟩
  · rw [hpass]
    exact stopped_respond s.step

/-! ## Runs -/

/-- What holds of a session and is kept by every pass holds after any number of them. -/
theorem runFor_induction {P : Session → Prop} (keep : ∀ s, P s → P s.pass.1) {s : Session} (h : P s)
    (count : Nat) : P (s.runFor count).1 := by
  induction count generalizing s with
  | zero => exact h
  | succ count ih =>
    have hkeep := keep s h
    rcases hpass : s.pass with ⟨next, outcome⟩
    rw [hpass] at hkeep
    cases outcome with
    | none =>
      rw [runFor_succ_of_none hpass]
      exact ih hkeep
    | some outcome =>
      rw [runFor_succ_of_some hpass]
      exact hkeep

/-- Passes that come to an end stop for a reason; others make a step each. -/
theorem runFor_stops (s : Session) (count : Nat) :
    (∀ outcome ∈ (s.runFor count).2, (s.runFor count).1.Stopped outcome) ∧
      ((s.runFor count).2 = none → (s.runFor count).1.steps = s.steps + count) := by
  induction count generalizing s with
  | zero => exact ⟨by simp, fun _ => rfl⟩
  | succ count ih =>
    rcases hpass : s.pass with ⟨next, outcome⟩
    cases outcome with
    | none =>
      have hnext : next.steps = s.steps + 1 := by
        rcases pass_cases s with ⟨limit, _, _, hlimit⟩ | ⟨_, hrespond⟩
        · rw [hlimit] at hpass
          exact absurd (congrArg Prod.snd hpass) (by simp)
        · rw [hrespond] at hpass
          have hsteps := steps_respond s.step
          rw [hpass] at hsteps
          exact hsteps
      rw [runFor_succ_of_none hpass]
      refine ⟨(ih next).1, fun hnone => ?_⟩
      rw [(ih next).2 hnone, hnext]
      omega
    | some outcome =>
      have hstopped := stopped_pass s
      rw [hpass] at hstopped
      rw [runFor_succ_of_some hpass]
      exact ⟨hstopped, fun hnone => absurd hnone (by simp)⟩

/-- A run stops for a reason, unless its steps can no longer be counted. -/
theorem run_stops (s : Session) : s.run.2.elim (capacity ≤ s.run.1.steps) s.run.1.Stopped := by
  obtain ⟨hstopped, hsteps⟩ := runFor_stops s (capacity - s.steps)
  unfold run
  cases hrun : (s.runFor (capacity - s.steps)).2 with
  | some outcome => exact hstopped outcome hrun
  | none =>
    have hcount := hsteps hrun
    rw [Option.elim_none]
    omega

/-- The session after a number of runs. -/
def afterRuns (s : Session) : (runs : Nat) → Session
  | 0 => s
  | runs + 1 => (s.afterRuns runs).run.1

theorem afterRuns_induction {P : Session → Prop} (keep : ∀ s, P s → P s.pass.1) {s : Session}
    (h : P s) (runs : Nat) : P (s.afterRuns runs) := by
  induction runs with
  | zero => exact h
  | succ runs ih => exact runFor_induction keep ih _

end Session

end Mailbox
