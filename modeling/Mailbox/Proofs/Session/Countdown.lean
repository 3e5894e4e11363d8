import Mathlib.Data.List.Basic
import Mailbox.Assembly.Program
import Mailbox.Proofs.Machine.Exact
import Mailbox.Proofs.Machine.Writes
import Mailbox.Proofs.Session.Execution
set_option autoImplicit false

/-!
# Counting down

A program that asks for a number and puts out one number after the other, each less by one than the
one before, until it comes to zero.  Main statement: from any number that is not negative it counts
down to zero and halts; from a negative number it goes on for ever, and stays at the least word once
it is there.
-/

namespace Mailbox

/-! ## Steps alone -/

namespace Machine

/-- The machine after a number of steps. -/
def stepped (m : Machine) (steps : Nat) : Machine :=
  m.performAll (List.replicate steps .step)

/-- The events of a number of steps. -/
def told (m : Machine) (steps : Nat) : List Event :=
  m.events (List.replicate steps .step)

variable {m : Machine}

@[simp] theorem stepped_zero (m : Machine) : m.stepped 0 = m := rfl

@[simp] theorem told_zero (m : Machine) : m.told 0 = [] := rfl

theorem stepped_succ (m : Machine) (steps : Nat) : m.stepped (steps + 1) = m.step.stepped steps :=
  rfl

theorem told_succ (m : Machine) (steps : Nat) :
    m.told (steps + 1) = m.step.report ++ m.step.told steps :=
  rfl

theorem stepped_add (m : Machine) (steps more : Nat) :
    m.stepped (steps + more) = (m.stepped steps).stepped more := by
  rw [stepped, ← List.replicate_append_replicate, performAll_append]
  rfl

theorem told_add (m : Machine) (steps more : Nat) :
    m.told (steps + more) = m.told steps ++ (m.stepped steps).told more := by
  rw [told, ← List.replicate_append_replicate, events_append]
  rfl

theorem stepped_of_not_isReady (h : m.isReady = false) (steps : Nat) : m.stepped steps = m := by
  induction steps with
  | zero => rfl
  | succ steps ih => rw [stepped_succ, step_of_not_isReady h, ih]

/-- Only a machine that is ready comes to be ready by steps alone. -/
theorem isReady_of_isReady_stepped {steps : Nat} (h : (m.stepped steps).isReady) : m.isReady := by
  cases hready : m.isReady with
  | true => rfl
  | false =>
    rw [stepped_of_not_isReady hready, hready] at h
    cases h

/-- A machine that waits, or whose program is over, reports its status again and again. -/
theorem told_of_not_isReady (h : m.isReady = false) (steps : Nat) :
    m.told steps = List.replicate steps (.reported m.status) := by
  have hreport : m.report = [.reported m.status] := by
    unfold report
    rcases (isReady_eq_false_iff m).1 h with hstatus | hstatus <;>
      cases hs : m.status <;> first | rfl | (rw [hs] at hstatus; cases hstatus)
  induction steps with
  | zero => rfl
  | succ steps ih =>
    rw [told_succ, step_of_not_isReady h, hreport, ih]
    rfl

end Machine

/-- One less than the nearest word is the word nearest to one less. -/
theorem Word.clamp_sub_one {n : Int} (h : n ≤ 9223372036854775807) :
    clamp n - 1 = clamp (n - 1) := by
  have hone : (1 : Word).val = 1 := val_ofNat (by decide)
  apply ext
  rw [val_sub, hone]
  simp only [clamp]
  omega

namespace Countdown

open Machine

/-! ## The program -/

/-- The program that counts down. -/
def source : String :=
  "; Count down from the input to zero\n" ++
  "        IN\n" ++
  "loop    OUT\n" ++
  "        BRZ done\n" ++
  "        SUB one\n" ++
  "        BR loop\n" ++
  "done    HLT\n" ++
  "one     DAT 1\n"

/-- The mailboxes of the program. -/
def image : Image := Image.ofList [901, 902, 705, 206, 601, 0, 1]

theorem assemble_source :
    Program.assemble source = .ok ⟨image, .ofList [("loop", 1), ("done", 5), ("one", 6)], 7⟩ := by
  decide +kernel

/-! ## Steps of the program -/

/-- A machine is about to execute the instruction of a mailbox of the program, with a word in its
accumulator. -/
structure At (m : Machine) (a : Address) (acc : Word) : Prop where
  memory_eq : m.memory = image
  isReady : m.isReady
  pc_eq : m.pc = a.val
  acc_eq : m.acc = acc

namespace At

variable {m : Machine} {a : Address} {acc : Word}

theorem step_eq (h : At m a acc) {i : Instruction}
    (hi : Instruction.decode? (image.read a) = some i) : m.step = m.execute i :=
  step_of_current? (current?_of_decode? h.isReady h.pc_eq (h.memory_eq ▸ hi))

/-- `OUT` puts the accumulator out. -/
theorem step_out (h : At m 1 acc) : At m.step 2 acc ∧ m.step.report = [.number acc] := by
  rw [h.step_eq (i := .output) (by decide +kernel), ← h.acc_eq]
  exact ⟨⟨h.memory_eq, rfl, congrArg (· + 1) h.pc_eq, rfl⟩, rfl⟩

/-- `BRZ done` goes on as long as there is something to take away. -/
theorem step_on (h : At m 2 acc) (hacc : acc.val ≠ 0) :
    At m.step 3 acc ∧ m.step.report = [] := by
  rw [h.step_eq (i := .branchZero 5) (by decide +kernel)]
  refine ⟨⟨h.memory_eq, rfl, ?_, h.acc_eq⟩, rfl⟩
  show (if m.acc.val = 0 then 5 else m.pc + 1) = 3
  rw [h.acc_eq, if_neg hacc, h.pc_eq]
  rfl

/-- `BRZ done` leaves the loop at zero. -/
theorem step_leave (h : At m 2 acc) (hacc : acc.val = 0) :
    At m.step 5 acc ∧ m.step.report = [] := by
  rw [h.step_eq (i := .branchZero 5) (by decide +kernel)]
  refine ⟨⟨h.memory_eq, rfl, ?_, h.acc_eq⟩, rfl⟩
  show (if m.acc.val = 0 then 5 else m.pc + 1) = 5
  rw [h.acc_eq, if_pos hacc]

/-- `SUB one` takes one away. -/
theorem step_take (h : At m 3 acc) : At m.step 4 (acc - 1) ∧ m.step.report = [] := by
  rw [h.step_eq (i := .sub 6) (by decide +kernel)]
  refine ⟨⟨h.memory_eq, rfl, congrArg (· + 1) h.pc_eq, ?_⟩, rfl⟩
  show m.acc - m.memory.read 6 = acc - 1
  rw [h.acc_eq, h.memory_eq]
  exact congrArg (acc - ·) (by decide +kernel)

/-- `BR loop` starts the next round. -/
theorem step_back (h : At m 4 acc) : At m.step 1 acc ∧ m.step.report = [] := by
  rw [h.step_eq (i := .branch 1) (by decide +kernel)]
  exact ⟨⟨h.memory_eq, rfl, rfl, h.acc_eq⟩, rfl⟩

/-- `HLT` ends the program. -/
theorem step_halt (h : At m 5 acc) : m.step.status = .halted := by
  rw [h.step_eq (i := .halt) (by decide +kernel)]
  rfl

/-! ## Rounds -/

/-- A round puts the accumulator out, in its first step, and takes one away from it. -/
theorem round (h : At m 1 acc) (hacc : acc.val ≠ 0) :
    At (m.stepped 4) 1 (acc - 1) ∧ ∀ steps < 4, m.told (steps + 1) = [.number acc] := by
  obtain ⟨hout, hnumber⟩ := h.step_out
  obtain ⟨hon, hnone⟩ := hout.step_on hacc
  obtain ⟨htake, hnone'⟩ := hon.step_take
  obtain ⟨hback, hnone''⟩ := htake.step_back
  refine ⟨hback, fun steps hsteps => ?_⟩
  have hcases : steps = 0 ∨ steps = 1 ∨ steps = 2 ∨ steps = 3 := by omega
  rcases hcases with rfl | rfl | rfl | rfl <;>
    simp only [told_succ, told_zero, hnumber, hnone, hnone', hnone'', List.append_nil]

/-- At zero a round puts out zero and halts. -/
theorem last_round (h : At m 1 acc) (hacc : acc.val = 0) :
    At (m.stepped 2) 5 acc ∧ (m.stepped 3).status = .halted ∧
      m.told 3 = [.number acc, .reported .halted] := by
  obtain ⟨hout, hnumber⟩ := h.step_out
  obtain ⟨hleave, hnone⟩ := hout.step_leave hacc
  have hhalt := hleave.step_halt
  have hreport : m.step.step.step.report = [.reported .halted] := by
    rw [report, hhalt]
  refine ⟨hleave, hhalt, ?_⟩
  rw [told_succ, told_succ, told_succ, told_zero, hnumber, hnone, hreport]
  rfl

end At

/-- The events of numbers that go down by one each. -/
def numbers (first : Word) (count : Nat) : List Event :=
  (List.range count).map fun i : Nat => .number (.clamp (first.val - i))

theorem numbers_succ (first : Word) (count : Nat) :
    numbers first (count + 1) = numbers first count ++ [.number (.clamp (first.val - count))] := by
  rw [numbers, List.range_succ, List.map_append]
  rfl

variable {m : Machine} {first : Word}

/-- As long as zero is not reached, rounds put out numbers that go down by one each. -/
theorem rounds (h : At m 1 first) {count : Nat} (hne : ∀ i < count, first.val ≠ (i : Nat)) :
    At (m.stepped (4 * count)) 1 (.clamp (first.val - count)) ∧
      m.told (4 * count) = numbers first count := by
  induction count with
  | zero => exact ⟨by simpa using h, rfl⟩
  | succ count ih =>
    obtain ⟨hstart, htold⟩ := ih fun i hi => hne i (Nat.lt_succ_of_lt hi)
    have hacc : (Word.clamp (first.val - count)).val ≠ 0 := by
      have hcount := hne count (Nat.lt_succ_self count)
      rw [Ne, Word.val_clamp_eq_zero_iff]
      omega
    have hfits : first.val - count ≤ 9223372036854775807 := by
      have hupper := first.upper
      omega
    have hnext : first.val - count - 1 = first.val - (count + 1 : Nat) := by omega
    obtain ⟨hround, hnumber⟩ := hstart.round hacc
    rw [Word.clamp_sub_one hfits, hnext] at hround
    refine ⟨?_, ?_⟩
    · rw [Nat.mul_succ, stepped_add]
      exact hround
    · rw [Nat.mul_succ, told_add, htold, hnumber 3 (by decide), numbers_succ]

/-- Each round that is begun has put out its number. -/
theorem told_steps (h : At m 1 first) (steps : Nat)
    (hne : ∀ i < (steps + 3) / 4, first.val ≠ (i : Nat)) :
    m.told steps = numbers first ((steps + 3) / 4) := by
  have hparts : 4 * (steps / 4) + steps % 4 = steps := Nat.div_add_mod steps 4
  obtain ⟨hstart, htold⟩ := rounds h fun i (hi : i < steps / 4) => hne i (by omega)
  have hlt : steps % 4 < 4 := Nat.mod_lt steps (by decide)
  rw [← hparts, told_add, htold]
  cases hrest : steps % 4 with
  | zero =>
    have hcount : (4 * (steps / 4) + 0 + 3) / 4 = steps / 4 := by omega
    rw [hcount, told_zero, List.append_nil]
  | succ rest =>
    have hcount : (4 * (steps / 4) + (rest + 1) + 3) / 4 = steps / 4 + 1 := by omega
    have hacc : (Word.clamp (first.val - (steps / 4 : Nat))).val ≠ 0 := by
      have hnumber := hne (steps / 4) (by omega)
      rw [Ne, Word.val_clamp_eq_zero_iff]
      omega
    rw [hcount, (hstart.round hacc).2 rest (by omega), numbers_succ]

/-! ## Numbers that are not negative -/

/-- The rounds end with the one that puts out zero, in its third step. -/
theorem last_rounds (h : At m 1 first) (hfirst : 0 ≤ first.val) :
    (m.stepped (4 * first.val.toNat + 2)).isReady ∧
      (m.stepped (4 * first.val.toNat + 3)).status = .halted ∧
      m.told (4 * first.val.toNat + 3) =
        numbers first (first.val.toNat + 1) ++ [.reported .halted] := by
  obtain ⟨hstart, htold⟩ := rounds h fun i (hi : i < first.val.toNat) => by omega
  have hacc : (Word.clamp (first.val - first.val.toNat)).val = 0 := by
    rw [Word.val_clamp_eq_zero_iff]
    omega
  obtain ⟨hleft, hhalted, hlast⟩ := hstart.last_round hacc
  refine ⟨?_, ?_, ?_⟩
  · rw [stepped_add]
    exact hleft.isReady
  · rw [stepped_add]
    exact hhalted
  · rw [told_add, htold, hlast, numbers_succ, List.append_assoc]
    rfl

theorem isReady_stepped_iff (h : At m 1 first) (hfirst : 0 ≤ first.val) (steps : Nat) :
    (m.stepped steps).isReady ↔ steps < 4 * first.val.toNat + 3 := by
  obtain ⟨hready, hhalted, -⟩ := last_rounds h hfirst
  constructor
  · intro hsteps
    by_contra hge
    obtain ⟨more, rfl⟩ := Nat.exists_eq_add_of_le (Nat.le_of_not_lt hge)
    rw [stepped_add] at hsteps
    have hover := isReady_of_isReady_stepped hsteps
    rw [isReady, hhalted] at hover
    cases hover
  · intro hlt
    obtain ⟨more, hmore⟩ := Nat.exists_eq_add_of_le (Nat.le_of_lt_succ hlt)
    rw [hmore, stepped_add] at hready
    exact isReady_of_isReady_stepped hready

/-- A machine that has halted stays so, and reports it with each further step. -/
theorem halted_after (h : At m 1 first) (hfirst : 0 ≤ first.val) (more : Nat) :
    (m.stepped (4 * first.val.toNat + 3 + more)).status = .halted ∧
      m.told (4 * first.val.toNat + 3 + more) = numbers first (first.val.toNat + 1) ++
        List.replicate (more + 1) (.reported .halted) := by
  obtain ⟨-, hhalted, htold⟩ := last_rounds h hfirst
  have hidle : (m.stepped (4 * first.val.toNat + 3)).isReady = false := by
    rw [isReady, hhalted]
    rfl
  constructor
  · rw [stepped_add, stepped_of_not_isReady hidle, hhalted]
  · rw [told_add, htold, told_of_not_isReady hidle, hhalted, List.append_assoc]
    rfl

/-! ## Negative numbers -/

/-- A machine in the loop, with a word in its accumulator. -/
def InLoop (m : Machine) (acc : Word) : Prop :=
  ∃ a : Address, a.val ∈ [1, 2, 3, 4] ∧ At m a acc

theorem InLoop.isReady {acc : Word} (h : InLoop m acc) : m.isReady := by
  obtain ⟨a, -, hat⟩ := h
  exact hat.isReady

theorem InLoop.acc_eq {acc : Word} (h : InLoop m acc) : m.acc = acc := by
  obtain ⟨a, -, hat⟩ := h
  exact hat.acc_eq

/-- A step in the loop stays in it, and puts out the accumulator if anything.  It may take one away
from the accumulator. -/
theorem InLoop.step {acc : Word} (h : InLoop m acc) (hacc : acc.val ≠ 0) :
    (InLoop m.step acc ∨ InLoop m.step (acc - 1)) ∧
      ∀ e ∈ m.step.report, e = .number acc := by
  obtain ⟨a, ha, hat⟩ := h
  simp only [List.mem_cons, List.not_mem_nil, or_false] at ha
  rcases ha with ha | ha | ha | ha
  · obtain rfl : a = 1 := Fin.ext ha
    obtain ⟨hnext, hreport⟩ := hat.step_out
    exact ⟨.inl ⟨2, by decide, hnext⟩, by simp [hreport]⟩
  · obtain rfl : a = 2 := Fin.ext ha
    obtain ⟨hnext, hreport⟩ := hat.step_on hacc
    exact ⟨.inl ⟨3, by decide, hnext⟩, by simp [hreport]⟩
  · obtain rfl : a = 3 := Fin.ext ha
    obtain ⟨hnext, hreport⟩ := hat.step_take
    exact ⟨.inr ⟨4, by decide, hnext⟩, by simp [hreport]⟩
  · obtain rfl : a = 4 := Fin.ext ha
    obtain ⟨hnext, hreport⟩ := hat.step_back
    exact ⟨.inl ⟨1, by decide, hnext⟩, by simp [hreport]⟩

/-- From a negative number there is no way out of the loop. -/
theorem InLoop.stepped {acc : Word} (h : InLoop m acc) (hacc : acc.val < 0) (steps : Nat) :
    ∃ last : Word, last.val < 0 ∧ InLoop (m.stepped steps) last := by
  induction steps generalizing m acc with
  | zero => exact ⟨acc, hacc, h⟩
  | succ steps ih =>
    rcases (h.step (Int.ne_of_lt hacc)).1 with hsame | hless
    · exact ih hsame hacc
    · refine ih hless ?_
      have hone : (1 : Word).val = 1 := Word.val_ofNat (by decide)
      rw [Word.val_sub, hone]
      simp only [Word.clamp]
      omega

/-- The least word stays, and nothing else is put out any more. -/
theorem InLoop.told_least {acc : Word} (h : InLoop m acc)
    (hacc : acc.val = -9223372036854775808) (steps : Nat) :
    ∀ e ∈ m.told steps, e = .number acc := by
  have hne : acc.val ≠ 0 := by omega
  have hstays : acc - 1 = acc := by
    have hone : (1 : Word).val = 1 := Word.val_ofNat (by decide)
    apply Word.ext
    rw [Word.val_sub, hone]
    simp only [Word.clamp]
    omega
  induction steps generalizing m with
  | zero => simp
  | succ steps ih =>
    obtain ⟨hnext, hreport⟩ := h.step hne
    rw [hstays, or_self] at hnext
    rw [told_succ]
    exact List.forall_mem_append.2 ⟨hreport, ih hnext⟩

/-! ## Whole runs -/

/-- The operations of a host that steps the machine until it asks for a number, and perhaps some
more times, gives it the number, and steps it on. -/
def operations (waits : Nat) (first : Word) (steps : Nat) : List Operation :=
  List.replicate (waits + 1) .step ++ .number first :: List.replicate steps .step

/-- The events up to the first step behind the number: the request, as often as the host has seen
it, and the number given. -/
def opening (waits : Nat) (first : Word) : List Event :=
  List.replicate (waits + 1) (.reported .awaitingNumber) ++ [.accepted (toString first.val)]

/-- What the host does comes to steps of a machine that is about to put out the number. -/
theorem operations_eq (waits : Nat) (first : Word) :
    ∃ m, At m 1 first ∧ ∀ steps,
      (start image).performAll (operations waits first steps) = m.stepped steps ∧
        (start image).events (operations waits first steps) =
          opening waits first ++ m.told steps := by
  have hrequest : (start image).step = (start image).execute .input :=
    step_of_current? (current?_of_decode? (a := 0) rfl rfl (by decide +kernel))
  have hidle : ((start image).execute .input).isReady = false := rfl
  have hasks : (start image).stepped (waits + 1) = (start image).execute .input := by
    rw [stepped_succ, hrequest, stepped_of_not_isReady hidle]
  have hasked : (start image).told (waits + 1) =
      List.replicate (waits + 1) (.reported .awaitingNumber) := by
    rw [told_succ, hrequest, told_of_not_isReady hidle]
    rfl
  refine ⟨((start image).execute .input).accept first, ⟨rfl, rfl, rfl, rfl⟩, fun steps => ?_⟩
  have hmachine : (start image).performAll (List.replicate (waits + 1) .step) =
      (start image).execute .input := hasks
  have hevents : (start image).events (List.replicate (waits + 1) .step) =
      List.replicate (waits + 1) (.reported .awaitingNumber) := hasked
  constructor
  · rw [operations, performAll_append, hmachine]
    rfl
  · rw [operations, events_append, hmachine, hevents, opening, List.append_assoc]
    rfl

/-- The program that counts down, in a machine that is stepped and given a number when it asks for
one.  From a number that is not negative it puts out this number and all below it down to zero, each
once and in order, puts out no characters, asks for nothing more, and halts with the third step of
the last round.  From a negative number the machine stays ready for the next step however often it
is stepped, each round puts out a number less by one than the round before as far as words reach,
and once the accumulator is the least word the machine puts out only this. -/
theorem counts_down_from_every_start :
    ∃ p, Program.assemble source = .ok p ∧ ∀ (waits : Nat) (first : Word),
      let machine (steps : Nat) := (start p.image).performAll (operations waits first steps)
      let events (steps : Nat) := (start p.image).events (operations waits first steps)
      (0 ≤ first.val →
        let total := 4 * first.val.toNat + 3
        (∀ steps, (machine steps).isReady ↔ steps < total) ∧
          ∀ more, (machine (total + more)).status = .halted ∧
            events (total + more) = opening waits first ++ numbers first (first.val.toNat + 1) ++
              List.replicate (more + 1) (.reported .halted)) ∧
      (first.val < 0 → ∀ steps,
        (machine steps).isReady ∧
          events steps = opening waits first ++ numbers first ((steps + 3) / 4) ∧
          ((machine steps).acc.val = -9223372036854775808 →
            ∀ more, ∀ e ∈ (machine steps).told more, e = .number (machine steps).acc)) := by
  refine ⟨_, assemble_source, fun waits first => ?_⟩
  obtain ⟨m, hat, hoperations⟩ := operations_eq waits first
  simp only [(hoperations _).1, (hoperations _).2]
  refine ⟨fun hfirst => ⟨isReady_stepped_iff hat hfirst, fun more => ?_⟩, fun hfirst steps => ?_⟩
  · obtain ⟨hhalted, htold⟩ := halted_after hat hfirst more
    exact ⟨hhalted, by rw [htold, List.append_assoc]⟩
  · obtain ⟨last, hlast, hloop⟩ := InLoop.stepped ⟨1, by decide, hat⟩ hfirst steps
    have htold := told_steps hat steps fun i _ => by omega
    refine ⟨hloop.isReady, by rw [htold], fun hleast => ?_⟩
    rw [hloop.acc_eq] at hleast ⊢
    exact hloop.told_least hleast

example : (start image).events (operations 0 3 15) =
    opening 0 3 ++ [.number 3, .number 2, .number 1, .number 0, .reported .halted] := by
  decide +kernel

end Countdown

end Mailbox
