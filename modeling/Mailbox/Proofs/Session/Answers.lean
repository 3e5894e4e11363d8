import Mailbox.Proofs.Assembly.LineText
import Mailbox.Proofs.Session.Sources
import Mailbox.Proofs.Session.Values
set_option autoImplicit false

/-!
# Answers

What a waiting value is worth to a machine that asks for one, said of the text alone, and what a
pass makes of it.  Main statements: the values that answer are the ones that are read, and a pass
goes in one of six ways.
-/

namespace Mailbox

/-! ## Padded text -/

namespace Text

/-- A text with white space at its ends, and without it. -/
def IsPadded (cs inner : List Char) : Prop :=
  ∃ before after, cs = before ++ inner ++ after ∧
    (∀ c ∈ before, isSpace c) ∧ ∀ c ∈ after, isSpace c

/-- Trimming takes away white space only. -/
theorem isPadded_trimList (cs : List Char) : IsPadded cs (trimList cs) := by
  have hspace : ∀ ds : List Char, ∀ c ∈ ds.takeWhile isSpace, isSpace c := fun ds =>
    List.all_eq_true.1 List.all_takeWhile
  have hfront := List.takeWhile_append_dropWhile (p := isSpace) (l := cs)
  have hback := List.takeWhile_append_dropWhile (p := isSpace) (l := (cs.dropWhile isSpace).reverse)
  refine ⟨cs.takeWhile isSpace, ((cs.dropWhile isSpace).reverse.takeWhile isSpace).reverse, ?_,
    hspace cs, fun c hc => hspace _ c (List.mem_reverse.1 hc)⟩
  rw [List.append_assoc, trimList, ← List.reverse_append, hback, List.reverse_reverse, hfront]

/-- White space around a text without any is what trimming takes away. -/
theorem IsPadded.trimList_eq {cs inner : List Char} (h : IsPadded cs inner) (hne : inner ≠ [])
    (hinner : ∀ c ∈ inner, isSpace c = false) : trimList cs = inner := by
  obtain ⟨before, after, rfl, hbefore, hafter⟩ := h
  obtain ⟨first, rest, rfl⟩ := List.exists_cons_of_ne_nil hne
  have hfirst : ((first :: rest) ++ after).dropWhile isSpace = (first :: rest) ++ after :=
    dropWhile_isSpace (hinner first List.mem_cons_self)
  have hlast : (first :: rest).reverse.dropWhile isSpace = (first :: rest).reverse := by
    refine dropWhile_isSpace ?_
    rw [List.head?_reverse, List.getLast?_eq_some_getLast hne]
    exact hinner _ (List.getLast_mem hne)
  rw [trimList, List.append_assoc, List.dropWhile_append_of_pos hbefore, hfirst,
    List.reverse_append,
    List.dropWhile_append_of_pos (fun c hc => hafter c (List.mem_reverse.1 hc)), hlast,
    List.reverse_reverse]

end Text

theorem Grammar.IsLiteral.trimList_eq {cs numeral : List Char} {value : Word}
    (h : IsLiteral numeral value) (hpadded : Text.IsPadded cs numeral) :
    Text.trimList cs = numeral :=
  hpadded.trimList_eq h.ne_nil fun c hc => isSpace_of_isWordChar (h.isWordChar c hc)

/-! ## Answers -/

/-- What fails a machine that asks for a value when none is left. -/
def Status.shortage? : Status → Option InputFault
  | .awaitingNumber => some .noNumber
  | .awaitingChar => some .noCharacter
  | .running | .producedNumber | .producedChar => none
  | .halted | .endOfMemory | .invalidInstruction => none

theorem Status.isAwaiting_of_shortage? {status : Status} {cause : InputFault}
    (h : status.shortage? = some cause) : status.isAwaiting := by
  cases status <;> first | rfl | cases h

namespace Supply

/-- A value answers a machine that asks for one: a numeral with white space around it answers for a
number, and a single character for its code. -/
inductive Answers : Supply → Status → Word → Prop
  | number {s : String} {numeral : List Char} {value : Word} :
      Text.IsPadded s.toList numeral → Grammar.IsLiteral numeral value →
      Answers (.text s) .awaitingNumber value
  | char {s : String} {c : Char} : s.toList = [c] →
      Answers (.text s) .awaitingChar (.ofCode c.val)

/-- What is wrong with a value that does not answer. -/
inductive Fails : Supply → Status → InputFault → Prop
  | badNumber {s : String} {cause : Text.NumeralFault} :
      (∀ value, ¬ Answers (.text s) .awaitingNumber value) →
      Fails (.text s) .awaitingNumber (.badNumber (Text.trim s) cause)
  | emptyCharacter : Fails (.text "") .awaitingChar .emptyCharacter
  | severalCharacters {s : String} : 1 < s.length →
      Fails (.text s) .awaitingChar (.severalCharacters s)
  | undecodable {status : Status} : status.isAwaiting → Fails .undecodable status .undecodable

variable {supply : Supply} {status : Status} {value : Word}

/-- The values that answer for a number are the ones that are read as a number. -/
theorem number_eq_ok_iff : Input.number supply = .ok value ↔
    supply.Answers .awaitingNumber value := by
  cases supply with
  | undecodable => exact ⟨nofun, nofun⟩
  | text s =>
    have hread : Input.number (.text s) = .ok value ↔
        Grammar.IsLiteral (Text.trimList s.toList) value := by
      rw [← Grammar.readWord_eq_ok_iff_isLiteral, Input.number]
      cases Text.readWord (Text.trimList s.toList) <;> simp
    rw [hread]
    constructor
    · exact fun h => .number (Text.isPadded_trimList s.toList) h
    · intro h
      cases h with
      | number hpadded hliteral => exact hliteral.trimList_eq hpadded ▸ hliteral

/-- The values that answer for a character are the ones that are read as a character. -/
theorem character_eq_ok_iff {c : Char} : Input.character supply = .ok c ↔
    ∃ s : String, supply = .text s ∧ s.toList = [c] := by
  cases supply with
  | undecodable => exact ⟨nofun, nofun⟩
  | text s =>
    simp only [Input.character, Supply.text.injEq, exists_eq_left']
    rcases s.toList with _ | ⟨first, _ | ⟨second, rest⟩⟩ <;> simp

theorem fails_of_number {cause : InputFault} (h : Input.number supply = .error cause) :
    supply.Fails .awaitingNumber cause := by
  have hnot : ∀ value, ¬ supply.Answers .awaitingNumber value := fun value ha => by
    rw [number_eq_ok_iff.2 ha] at h
    cases h
  cases supply with
  | undecodable =>
    cases h
    exact .undecodable rfl
  | text s =>
    simp only [Input.number] at h
    split at h
    · cases h
    · cases h
      exact .badNumber hnot

theorem fails_of_character {cause : InputFault} (h : Input.character supply = .error cause) :
    supply.Fails .awaitingChar cause := by
  cases supply with
  | undecodable =>
    cases h
    exact .undecodable rfl
  | text s =>
    simp only [Input.character] at h
    split at h
    · rename_i hnil
      cases h
      rw [String.toList_eq_nil_iff.1 hnil]
      exact .emptyCharacter
    · cases h
    · rename_i hlist
      cases h
      refine .severalCharacters ?_
      rw [← String.length_toList, hlist]
      simp

theorem Answers.isAwaiting (h : supply.Answers status value) : status.isAwaiting := by
  cases h <;> rfl

theorem Fails.isAwaiting {cause : InputFault} (h : supply.Fails status cause) :
    status.isAwaiting := by
  cases h with
  | undecodable ha => exact ha
  | _ => rfl

/-- A value answers in one way at most. -/
theorem Answers.unique {other : Word} (h : supply.Answers status value)
    (h' : supply.Answers status other) : value = other := by
  cases h with
  | number hpadded hliteral =>
    have hvalue := number_eq_ok_iff.2 (.number hpadded hliteral)
    rw [number_eq_ok_iff.2 h'] at hvalue
    exact (Except.ok.inj hvalue).symm
  | char hchar =>
    cases h' with
    | char hother =>
      rw [hchar, List.cons.injEq] at hother
      rw [hother.1]

/-- A value that fails does not answer. -/
theorem Fails.not_answers {cause : InputFault} (h : supply.Fails status cause) (value : Word) :
    ¬ supply.Answers status value := by
  cases h with
  | badNumber hnot => exact hnot value
  | undecodable _ => nofun
  | emptyCharacter =>
    intro h
    cases h with
    | char hchar => simp at hchar
  | severalCharacters hlength =>
    intro h
    cases h with
    | char hchar =>
      rw [← String.length_toList, hchar] at hlength
      exact absurd hlength (by simp)

end Supply

/-! ## Passes -/

namespace Session

/-- A further step may be made. -/
def MayStep (s : Session) : Prop :=
  ∀ limit ∈ s.limit, s.steps < limit

/-- The ways that a pass can go: what it makes of the machine and of the values that wait, and the
outcome if the run ends with it. -/
inductive Passing (s : Session) : Machine → List Supply → Option Outcome → Prop
  /-- No further step may be made. -/
  | stopped {limit : Nat} : s.limit = some limit → limit ≤ s.steps →
      Passing s s.machine s.input.waiting (some (.failed (.limitReached limit s.machine.pc)))
  /-- The step asks for nothing. -/
  | quiet : s.MayStep → s.machine.step.isReady →
      Passing s s.machine.step s.input.waiting none
  /-- The program is over. -/
  | ended : s.MayStep → s.machine.step.status.isTerminal →
      Passing s s.machine.step s.input.waiting (some (.ended s.machine.step.status))
  /-- The step asks for a value, and there is none. -/
  | starved {cause : InputFault} : s.MayStep → s.input.waiting = [] →
      s.machine.step.status.shortage? = some cause →
      Passing s s.machine.step s.input.waiting (some (.failed (.input cause)))
  /-- The step asks for a value, and the first one answers. -/
  | answered {supply : Supply} {rest : List Supply} {value : Word} : s.MayStep →
      s.input.waiting = supply :: rest → supply.Answers s.machine.step.status value →
      Passing s (s.machine.step.accept value) rest none
  /-- The step asks for a value, and the first one does not answer. -/
  | failed {supply : Supply} {rest : List Supply} {cause : InputFault} : s.MayStep →
      s.input.waiting = supply :: rest → supply.Fails s.machine.step.status cause →
      Passing s s.machine.step rest (some (.failed (.input cause)))

theorem passing_supplyNumber {s : Session} (hmay : s.MayStep)
    (h : s.machine.step.status = .awaitingNumber) :
    s.Passing s.step.announce.supplyNumber.1.machine
      s.step.announce.supplyNumber.1.input.waiting s.step.announce.supplyNumber.2 := by
  have hstatus : s.step.announce.machine.status = .awaitingNumber := h
  cases hwaiting : s.input.waiting with
  | nil =>
    have hread : s.step.announce.input.readNumber = _ := Input.readNumber_of_nil hwaiting
    rw [supplyNumber_of_error hread]
    exact .starved hmay hwaiting (by rw [h]; rfl)
  | cons supply rest =>
    have hread : s.step.announce.input.readNumber = _ := Input.readNumber_of_cons hwaiting
    cases hnumber : Input.number supply with
    | error cause =>
      rw [hnumber] at hread
      rw [supplyNumber_of_error hread]
      exact .failed hmay hwaiting (h ▸ Supply.fails_of_number hnumber)
    | ok value =>
      rw [hnumber] at hread
      rw [supplyNumber_of_ok hstatus hread]
      exact .answered hmay hwaiting (h ▸ Supply.number_eq_ok_iff.1 hnumber)

theorem passing_supplyChar {s : Session} (hmay : s.MayStep)
    (h : s.machine.step.status = .awaitingChar) :
    s.Passing s.step.announce.supplyChar.1.machine
      s.step.announce.supplyChar.1.input.waiting s.step.announce.supplyChar.2 := by
  have hstatus : s.step.announce.machine.status = .awaitingChar := h
  cases hwaiting : s.input.waiting with
  | nil =>
    have hread : s.step.announce.input.readChar = _ := Input.readChar_of_nil hwaiting
    rw [supplyChar_of_error hread]
    exact .starved hmay hwaiting (by rw [h]; rfl)
  | cons supply rest =>
    have hread : s.step.announce.input.readChar = _ := Input.readChar_of_cons hwaiting
    cases hcharacter : Input.character supply with
    | error cause =>
      rw [hcharacter] at hread
      rw [supplyChar_of_error hread]
      exact .failed hmay hwaiting (h ▸ Supply.fails_of_character hcharacter)
    | ok c =>
      rw [hcharacter] at hread
      rw [supplyChar_of_ok hstatus hread]
      obtain ⟨text, rfl, hchar⟩ := Supply.character_eq_ok_iff.1 hcharacter
      exact .answered hmay hwaiting (h ▸ .char hchar)

/-- Every pass goes in one of the six ways. -/
theorem passing (s : Session) : s.Passing s.pass.1.machine s.pass.1.input.waiting s.pass.2 := by
  rcases pass_cases s with ⟨limit, hlimit, hle, hpass⟩ | ⟨hmay, hpass⟩
  · rw [hpass]
    exact .stopped hlimit hle
  · have hstatus : s.step.machine.status = s.machine.step.status := rfl
    rw [hpass]
    unfold respond
    rw [hstatus]
    cases hs : s.machine.step.status with
    | running | producedNumber | producedChar =>
      exact .quiet hmay (Machine.isReady_iff.2 (by rw [hs]; exact ⟨rfl, rfl⟩))
    | halted | endOfMemory | invalidInstruction =>
      have hended : s.Passing s.machine.step s.input.waiting
          (some (.ended s.machine.step.status)) := .ended hmay (by rw [hs]; rfl)
      rw [hs] at hended
      exact hended
    | awaitingNumber => exact passing_supplyNumber hmay hs
    | awaitingChar => exact passing_supplyChar hmay hs

variable {s : Session} {machine : Machine} {waiting : List Supply} {outcome : Option Outcome}

/-- A step that asks for nothing leaves the values, and the program goes on or is over. -/
theorem Passing.of_not_isAwaiting (h : s.Passing machine waiting outcome) (hmay : s.MayStep)
    (ha : s.machine.step.status.isAwaiting = false) :
    machine = s.machine.step ∧ waiting = s.input.waiting ∧
      (s.machine.step.isReady ∧ outcome = none ∨
        s.machine.step.status.isTerminal ∧ outcome = some (.ended s.machine.step.status)) := by
  cases h with
  | stopped hlimit hle => exact absurd (hmay _ hlimit) (Nat.not_lt.2 hle)
  | quiet _ hready => exact ⟨rfl, rfl, .inl ⟨hready, rfl⟩⟩
  | ended _ hterminal => exact ⟨rfl, rfl, .inr ⟨hterminal, rfl⟩⟩
  | starved _ _ hshortage =>
    exact absurd (Status.isAwaiting_of_shortage? hshortage) (Bool.eq_false_iff.1 ha)
  | answered _ _ hanswers => exact absurd hanswers.isAwaiting (Bool.eq_false_iff.1 ha)
  | failed _ _ hfails => exact absurd hfails.isAwaiting (Bool.eq_false_iff.1 ha)

/-- A step that asks for a value takes the first one if there is one, and its answer is what the
machine goes on with. -/
theorem Passing.of_isAwaiting (h : s.Passing machine waiting outcome) (hmay : s.MayStep)
    (ha : s.machine.step.status.isAwaiting) :
    waiting = s.input.waiting.tail ∧
      ∀ value, (∃ supply ∈ s.input.waiting.head?,
          supply.Answers s.machine.step.status value) ↔
        machine = s.machine.step.accept value ∧ outcome = none := by
  cases h with
  | stopped hlimit hle => exact absurd (hmay _ hlimit) (Nat.not_lt.2 hle)
  | quiet _ hready => exact absurd ha (by simp [(Machine.isReady_iff.1 hready).2])
  | ended _ hterminal => exact absurd ha (by simp [Status.isAwaiting_of_isTerminal hterminal])
  | starved _ hnil _ => simp [hnil]
  | @answered first rest given _ hcons hanswers =>
    refine ⟨by rw [hcons]; rfl, fun value => ⟨?_, ?_⟩⟩
    · rintro ⟨supply, hmem, hother⟩
      rw [hcons] at hmem
      obtain rfl := Option.some.inj hmem
      exact ⟨by rw [hanswers.unique hother], rfl⟩
    · rintro ⟨hmachine, _⟩
      obtain rfl : given = value := congrArg Machine.acc hmachine
      exact ⟨first, by rw [hcons]; rfl, hanswers⟩
  | failed _ hcons hfails =>
    refine ⟨by rw [hcons]; rfl, fun value => ⟨?_, nofun⟩⟩
    rintro ⟨supply, hmem, hother⟩
    rw [hcons] at hmem
    obtain rfl := Option.some.inj hmem
    exact absurd hother (hfails.not_answers value)

/-- A program that is over has come to a terminal status. -/
theorem Passing.of_ended {status : Status} (h : s.Passing machine waiting (some (.ended status))) :
    s.MayStep ∧ s.machine.step.status.isTerminal ∧ machine = s.machine.step ∧
      status = s.machine.step.status := by
  cases h with
  | ended hmay hterminal => exact ⟨hmay, hterminal, rfl, rfl⟩

/-! ## Passes of a run -/

theorem runFor_one (s : Session) : s.runFor 1 = s.pass := by
  rcases hpass : s.pass with ⟨next, _ | outcome⟩
  · exact runFor_succ_of_none hpass 0
  · exact runFor_succ_of_some hpass 0

/-- A run that ends makes passes that do not end it, and then one that does. -/
theorem exists_last_pass {t : Session} {outcome : Outcome} {count : Nat}
    (h : s.runFor count = (t, some outcome)) :
    ∃ passes last, passes < count ∧ s.runFor passes = (last, none) ∧
      last.pass = (t, some outcome) := by
  induction count generalizing s with
  | zero => cases h
  | succ count ih =>
    rcases hpass : s.pass with ⟨next, _ | result⟩
    · rw [runFor_succ_of_none hpass] at h
      obtain ⟨passes, last, hlt, hpasses, hlast⟩ := ih h
      exact ⟨passes + 1, last, Nat.succ_lt_succ hlt, (runFor_succ_of_none hpass passes).trans hpasses,
        hlast⟩
    · rw [runFor_succ_of_some hpass] at h
      exact ⟨0, s, Nat.succ_pos count, rfl, hpass.trans h⟩

end Session

end Mailbox
