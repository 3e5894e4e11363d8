import Mailbox.Proofs.Session.Runs
set_option autoImplicit false

/-!
# Values that are read

A pass reads one value at most, and only a pass that asks for one does.  Main statements: values
behind those that are read make no difference, and a run that fails on a value has used it up.
-/

namespace Mailbox

/-! ## Reading a value -/

namespace Input

variable {input : Input} {supply : Supply} {rest : List Supply}

theorem readNumber_of_cons (h : input.waiting = supply :: rest) :
    input.readNumber = (number supply, ⟨rest⟩) := by
  rw [readNumber, h]

theorem readChar_of_cons (h : input.waiting = supply :: rest) :
    input.readChar = (character supply, ⟨rest⟩) := by
  rw [readChar, h]

theorem readNumber_of_nil (h : input.waiting = []) :
    input.readNumber = (.error .noNumber, input) := by
  rw [readNumber, h]

theorem readChar_of_nil (h : input.waiting = []) :
    input.readChar = (.error .noCharacter, input) := by
  rw [readChar, h]

end Input

/-! ## Values behind those that are read -/

namespace Session

/-- A session with more values behind those that wait. -/
def withMore (s : Session) (more : List Supply) : Session :=
  { s with input := ⟨s.input.waiting ++ more⟩ }

/-- The next step asks for a value and none is waiting. -/
def Starves (s : Session) : Prop :=
  s.machine.step.status.isAwaiting ∧ s.input.waiting = []

theorem supplyNumber_withMore {s : Session} (hs : s.machine.status = .awaitingNumber)
    (h : s.input.waiting ≠ []) (more : List Supply) :
    (s.withMore more).supplyNumber = (s.supplyNumber.1.withMore more, s.supplyNumber.2) := by
  have hstatus : (s.withMore more).machine.status = .awaitingNumber := hs
  obtain ⟨supply, rest, hwaiting⟩ := List.exists_cons_of_ne_nil h
  have hread := Input.readNumber_of_cons hwaiting
  have hreadMore : (s.withMore more).input.readNumber = (Input.number supply, ⟨rest ++ more⟩) :=
    Input.readNumber_of_cons (by simp [withMore, hwaiting])
  cases hnumber : Input.number supply with
  | error cause =>
    rw [hnumber] at hread hreadMore
    rw [supplyNumber_of_error hread, supplyNumber_of_error hreadMore]
    rfl
  | ok value =>
    rw [hnumber] at hread hreadMore
    rw [supplyNumber_of_ok hs hread, supplyNumber_of_ok hstatus hreadMore]
    rfl

theorem supplyChar_withMore {s : Session} (hs : s.machine.status = .awaitingChar)
    (h : s.input.waiting ≠ []) (more : List Supply) :
    (s.withMore more).supplyChar = (s.supplyChar.1.withMore more, s.supplyChar.2) := by
  have hstatus : (s.withMore more).machine.status = .awaitingChar := hs
  obtain ⟨supply, rest, hwaiting⟩ := List.exists_cons_of_ne_nil h
  have hread := Input.readChar_of_cons hwaiting
  have hreadMore : (s.withMore more).input.readChar = (Input.character supply, ⟨rest ++ more⟩) :=
    Input.readChar_of_cons (by simp [withMore, hwaiting])
  cases hcharacter : Input.character supply with
  | error cause =>
    rw [hcharacter] at hread hreadMore
    rw [supplyChar_of_error hread, supplyChar_of_error hreadMore]
    rfl
  | ok c =>
    rw [hcharacter] at hread hreadMore
    rw [supplyChar_of_ok hs hread, supplyChar_of_ok hstatus hreadMore]
    rfl

/-- A response reads one value at most, so the others make no difference. -/
theorem respond_withMore {s : Session} (h : s.machine.status.isAwaiting → s.input.waiting ≠ [])
    (more : List Supply) :
    (s.withMore more).respond = (s.respond.1.withMore more, s.respond.2) := by
  have hmachine : (s.withMore more).machine = s.machine := rfl
  have hannounce : (s.withMore more).announce = s.announce.withMore more := rfl
  unfold respond
  rw [hmachine]
  cases hs : s.machine.status with
  | awaitingNumber =>
    rw [hannounce]
    exact supplyNumber_withMore (s := s.announce) hs (h (by rw [hs]; rfl)) more
  | awaitingChar =>
    rw [hannounce]
    exact supplyChar_withMore (s := s.announce) hs (h (by rw [hs]; rfl)) more
  | _ => rfl

theorem pass_withMore {s : Session} (h : ¬ s.Starves) (more : List Supply) :
    (s.withMore more).pass = (s.pass.1.withMore more, s.pass.2) := by
  have hlimit : (s.withMore more).exhaustedLimit? = s.exhaustedLimit? := rfl
  unfold pass
  rw [hlimit]
  cases s.exhaustedLimit? with
  | some limit => rfl
  | none => exact respond_withMore (s := s.step) (fun ha hempty => h ⟨ha, hempty⟩) more

end Session

/-! ## Values that are of no use -/

namespace InputFault

/-- There was no value to read. -/
def isExhaustion : InputFault → Bool
  | .noNumber | .noCharacter => true
  | .badNumber _ _ | .emptyCharacter | .severalCharacters _ | .undecodable => false

end InputFault

theorem Input.isExhaustion_of_number {supply : Supply} {cause : InputFault}
    (h : number supply = .error cause) : cause.isExhaustion = false := by
  cases supply with
  | text s =>
    simp only [number] at h
    split at h
    · exact absurd h (by simp)
    · obtain rfl := Except.error.inj h
      rfl
  | undecodable =>
    obtain rfl := Except.error.inj h
    rfl

theorem Input.isExhaustion_of_character {supply : Supply} {cause : InputFault}
    (h : character supply = .error cause) : cause.isExhaustion = false := by
  cases supply with
  | text s =>
    simp only [character] at h
    split at h
    · obtain rfl := Except.error.inj h
      rfl
    · exact absurd h (by simp)
    · obtain rfl := Except.error.inj h
      rfl
  | undecodable =>
    obtain rfl := Except.error.inj h
    rfl

namespace Session

/-- What is left to be read after `r` is no more than `before`, and less if `r` failed on a value
that was there. -/
def Consumes (before : List Supply) (r : Session × Option Outcome) : Prop :=
  r.1.input.waiting.length ≤ before.length ∧
    ∀ cause, r.2 = some (.failed (.input cause)) → cause.isExhaustion = false →
      r.1.input.waiting.length < before.length

theorem Consumes.of_waiting_eq {before : List Supply} {r : Session × Option Outcome}
    (hwaiting : r.1.input.waiting = before)
    (houtcome : ∀ cause, r.2 = some (.failed (.input cause)) → cause.isExhaustion) :
    Consumes before r :=
  ⟨Nat.le_of_eq (congrArg List.length hwaiting),
    fun cause h hvalue => absurd (houtcome cause h) (by simp [hvalue])⟩

theorem Consumes.of_cons {supply : Supply} {rest : List Supply} {r : Session × Option Outcome}
    (h : r.1.input.waiting = rest) : Consumes (supply :: rest) r := by
  have hlt : r.1.input.waiting.length < (supply :: rest).length := by simp [h]
  exact ⟨Nat.le_of_lt hlt, fun _ _ _ => hlt⟩

theorem waiting_supplyNumber {s : Session} (hs : s.machine.status = .awaitingNumber)
    {supply : Supply} {rest : List Supply} (h : s.input.waiting = supply :: rest) :
    s.supplyNumber.1.input.waiting = rest := by
  have hread := Input.readNumber_of_cons h
  cases hnumber : Input.number supply with
  | error cause => rw [supplyNumber_of_error (hnumber ▸ hread)]
  | ok value =>
    rw [supplyNumber_of_ok hs (hnumber ▸ hread)]
    rfl

theorem waiting_supplyChar {s : Session} (hs : s.machine.status = .awaitingChar)
    {supply : Supply} {rest : List Supply} (h : s.input.waiting = supply :: rest) :
    s.supplyChar.1.input.waiting = rest := by
  have hread := Input.readChar_of_cons h
  cases hcharacter : Input.character supply with
  | error cause => rw [supplyChar_of_error (hcharacter ▸ hread)]
  | ok c =>
    rw [supplyChar_of_ok hs (hcharacter ▸ hread)]
    rfl

theorem consumes_supplyNumber {s : Session} (hs : s.machine.status = .awaitingNumber) :
    Consumes s.input.waiting s.supplyNumber := by
  cases hwaiting : s.input.waiting with
  | nil =>
    rw [supplyNumber_of_error (Input.readNumber_of_nil hwaiting)]
    exact .of_waiting_eq hwaiting (by simp [InputFault.isExhaustion])
  | cons supply rest => exact .of_cons (waiting_supplyNumber hs hwaiting)

theorem consumes_supplyChar {s : Session} (hs : s.machine.status = .awaitingChar) :
    Consumes s.input.waiting s.supplyChar := by
  cases hwaiting : s.input.waiting with
  | nil =>
    rw [supplyChar_of_error (Input.readChar_of_nil hwaiting)]
    exact .of_waiting_eq hwaiting (by simp [InputFault.isExhaustion])
  | cons supply rest => exact .of_cons (waiting_supplyChar hs hwaiting)

theorem consumes_respond (s : Session) : Consumes s.input.waiting s.respond := by
  unfold respond
  cases hs : s.machine.status with
  | awaitingNumber => exact consumes_supplyNumber (s := s.announce) hs
  | awaitingChar => exact consumes_supplyChar (s := s.announce) hs
  | _ => exact .of_waiting_eq rfl (by simp)

theorem consumes_pass (s : Session) : Consumes s.input.waiting s.pass := by
  rcases pass_cases s with ⟨limit, _, _, hpass⟩ | ⟨_, hpass⟩
  · rw [hpass]
    exact .of_waiting_eq rfl (by simp)
  · rw [hpass]
    exact consumes_respond s.step

theorem consumes_runFor (s : Session) (count : Nat) :
    Consumes s.input.waiting (s.runFor count) := by
  induction count generalizing s with
  | zero => exact .of_waiting_eq rfl (by simp)
  | succ count ih =>
    have hpassed := consumes_pass s
    rcases hpass : s.pass with ⟨next, result⟩
    rw [hpass] at hpassed
    cases result with
    | none =>
      rw [runFor_succ_of_none hpass]
      exact ⟨Nat.le_trans (ih next).1 hpassed.1,
        fun cause h hvalue => Nat.lt_of_lt_of_le ((ih next).2 cause h hvalue) hpassed.1⟩
    | some outcome =>
      rw [runFor_succ_of_some hpass]
      exact hpassed

end Session

end Mailbox
