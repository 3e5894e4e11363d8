import Mailbox.Proofs.Machine.Writes
import Mailbox.Proofs.Session.Answers
set_option autoImplicit false

/-!
# Accounting for input

A pass that asks for a value takes one, if one is left, and no other pass does.  Main statement:
over any number of runs the values that wait are the given ones behind as many as were asked for,
each of them is accepted if and only if it answers, and a run fails for a shortage, for a value that
does not answer, or at the limit.

Normative source: SPEC_FULL.md, section A6.8.
-/

namespace Mailbox

/-- A request changes nothing but the status, so the answer is all that the machine before it
takes over. -/
theorem Machine.accept_step {m : Machine} (h : m.step.status.isAwaiting) (value : Word) :
    m.step.accept value =
      { m with status := .running, pc := m.pc + 1, acc := value, io := value } := by
  rcases m.step_leaves with ⟨_, hstep⟩ | ⟨hready, _⟩
  · rw [hstep]
    rfl
  · exact absurd h (by simp [(isReady_iff.1 hready).2])

/-- Only texts wait. -/
def Input.OnlyTexts (input : Input) : Prop :=
  ∀ supply ∈ input.waiting, ∃ v, supply = .text v

theorem Input.onlyTexts_ofValues (values : List String) : (Input.ofValues values).OnlyTexts := by
  intro supply hmem
  obtain ⟨v, _, rfl⟩ := List.mem_map.1 hmem
  exact ⟨v, rfl⟩

namespace Session

/-- The next pass makes a step that asks for a value. -/
def Asks (s : Session) : Prop :=
  s.MayStep ∧ s.machine.step.status.isAwaiting

instance (s : Session) : Decidable s.Asks :=
  inferInstanceAs (Decidable ((∀ limit ∈ s.limit, s.steps < limit) ∧
    s.machine.step.status.isAwaiting = true))

/-- Why a run can fail with the next pass, when only texts wait. -/
inductive FailsFor (s : Session) : SessionFault → Prop
  /-- No further step may be made. -/
  | limit {limit : Nat} : s.limit = some limit → limit ≤ s.steps →
      FailsFor s (.limitReached limit s.machine.pc)
  /-- A value is asked for, and none is left. -/
  | exhausted {cause : InputFault} : s.Asks → s.input.waiting = [] →
      s.machine.step.status.shortage? = some cause → FailsFor s (.input cause)
  /-- A value is asked for, and the first one does not answer. -/
  | bad {v : String} {rest : List Supply} {cause : InputFault} : s.Asks →
      s.input.waiting = .text v :: rest →
      (Supply.text v).Fails s.machine.step.status cause → FailsFor s (.input cause)

/-- What the next pass does with the values that wait. -/
structure Accounts (s : Session) : Prop where
  /-- A request takes the first value, if there is one. -/
  takes : s.Asks → s.pass.1.input.waiting = s.input.waiting.tail
  /-- Without a request no value is taken. -/
  keeps : ¬ s.Asks → s.pass.1.input.waiting = s.input.waiting
  /-- What the machine goes on with is what the first value answers. -/
  accepts : s.Asks → ∀ value,
    (∃ supply ∈ s.input.waiting.head?, supply.Answers s.machine.step.status value) ↔
      s.pass.1.machine =
          { s.machine with
            status := .running
            pc := s.machine.pc + 1
            acc := value
            io := value } ∧
        s.pass.2 = none
  /-- There is a reason if the run fails. -/
  fails : ∀ fault, s.pass.2 = some (.failed fault) → s.FailsFor fault

variable {s : Session}

/-! ## One pass -/

theorem waiting_of_asks (h : s.Asks) : s.pass.1.input.waiting = s.input.waiting.tail :=
  (s.passing.of_isAwaiting h.1 h.2).1

theorem waiting_of_not_asks (h : ¬ s.Asks) : s.pass.1.input.waiting = s.input.waiting := by
  rcases pass_cases s with ⟨limit, _, _, hpass⟩ | ⟨hmay, _⟩
  · rw [hpass]
  · have ha : s.machine.step.status.isAwaiting = false := Bool.eq_false_iff.2 fun ha => h ⟨hmay, ha⟩
    exact (s.passing.of_not_isAwaiting hmay ha).2.1

/-- A pass takes as many values as it asks for. -/
theorem waiting_pass (s : Session) :
    s.pass.1.input.waiting = s.input.waiting.drop (if s.Asks then 1 else 0) := by
  by_cases h : s.Asks
  · rw [waiting_of_asks h, if_pos h, List.drop_one]
  · rw [waiting_of_not_asks h, if_neg h, List.drop_zero]

theorem Passing.failsFor {machine : Machine} {waiting : List Supply} {outcome : Option Outcome}
    (h : s.Passing machine waiting outcome) (htexts : s.input.OnlyTexts) {fault : SessionFault}
    (hfault : outcome = some (.failed fault)) : s.FailsFor fault := by
  cases h with
  | stopped hlimit hle =>
    cases hfault
    exact .limit hlimit hle
  | starved hmay hnil hshortage =>
    cases hfault
    exact .exhausted ⟨hmay, Status.isAwaiting_of_shortage? hshortage⟩ hnil hshortage
  | @failed supply rest cause hmay hcons hfails =>
    cases hfault
    obtain ⟨v, rfl⟩ := htexts supply (hcons ▸ List.mem_cons_self)
    exact .bad ⟨hmay, hfails.isAwaiting⟩ hcons hfails
  | quiet | ended | answered => cases hfault

theorem accounts (htexts : s.input.OnlyTexts) : s.Accounts where
  takes := waiting_of_asks
  keeps := waiting_of_not_asks
  accepts := by
    intro h value
    rw [(s.passing.of_isAwaiting h.1 h.2).2 value, Machine.accept_step h.2]
  fails _ := s.passing.failsFor htexts

/-- Passes bring no other values in. -/
theorem onlyTexts_pass (s : Session) (h : s.input.OnlyTexts) : s.pass.1.input.OnlyTexts := by
  intro supply hmem
  rw [waiting_pass] at hmem
  exact h supply (List.mem_of_mem_drop hmem)

/-! ## Any number of runs -/

/-- How many of the passes of a run ask for a value, when `count` passes are made at most. -/
def requests (s : Session) : (count : Nat) → Nat
  | 0 => 0
  | count + 1 =>
    (if s.Asks then 1 else 0) +
      match s.pass with
      | (_, some _) => 0
      | (next, none) => next.requests count

/-- How many passes of a number of runs ask for a value. -/
def requestsOfRuns (s : Session) : (runs : Nat) → Nat
  | 0 => 0
  | runs + 1 =>
    s.requestsOfRuns runs + (s.afterRuns runs).requests (capacity - (s.afterRuns runs).steps)

theorem waiting_runFor (s : Session) (count : Nat) :
    (s.runFor count).1.input.waiting = s.input.waiting.drop (s.requests count) := by
  induction count generalizing s with
  | zero => rfl
  | succ count ih =>
    have hwaiting := waiting_pass s
    rw [requests]
    rcases hpass : s.pass with ⟨next, _ | outcome⟩ <;> rw [hpass] at hwaiting
    · rw [runFor_succ_of_none hpass, ih, hwaiting, List.drop_drop]
    · rw [runFor_succ_of_some hpass, hwaiting, Nat.add_zero]

theorem waiting_afterRuns (s : Session) (runs : Nat) :
    (s.afterRuns runs).input.waiting = s.input.waiting.drop (s.requestsOfRuns runs) := by
  induction runs with
  | zero => rfl
  | succ runs ih => rw [afterRuns, run, waiting_runFor, ih, List.drop_drop, requestsOfRuns]

/-- After any number of runs over given values, and at every pass of the next one, the values that
wait are those behind as many as were asked for, and the pass accounts for what it does with them.
If the run fails, it fails in a pass that has a reason to. -/
theorem runs_account_for_input (image : Image) (values : List String) (options : SessionOptions)
    (runs : Nat) :
    let initial := start image (.ofValues values) options
    let s := initial.afterRuns runs
    (∀ count, (s.runFor count).1.input = .ofValues
          (values.drop (initial.requestsOfRuns runs + s.requests count)) ∧
        (s.runFor count).1.Accounts) ∧
      ∀ fault, s.run.2 = some (.failed fault) → ∃ count last,
        s.runFor count = (last, none) ∧ last.pass = s.run ∧ last.FailsFor fault := by
  intro initial s
  have htexts : s.input.OnlyTexts :=
    afterRuns_induction (P := fun t => t.input.OnlyTexts) onlyTexts_pass
      (Input.onlyTexts_ofValues values) runs
  have htextsFor : ∀ count, (s.runFor count).1.input.OnlyTexts :=
    runFor_induction (P := fun t => t.input.OnlyTexts) onlyTexts_pass htexts
  refine ⟨fun count => ⟨?_, accounts (htextsFor count)⟩, fun fault hfault => ?_⟩
  · have hwaiting : (s.runFor count).1.input.waiting = (Input.ofValues
        (values.drop (initial.requestsOfRuns runs + s.requests count))).waiting := by
      rw [waiting_runFor, waiting_afterRuns, List.drop_drop]
      exact List.map_drop.symm
    exact congrArg Input.mk hwaiting
  · have hrun : s.run = (s.run.1, some (.failed fault)) := Prod.ext rfl hfault
    obtain ⟨count, last, _, hlast, hpass⟩ := exists_last_pass hrun
    have hlastTexts := htextsFor count
    rw [hlast] at hlastTexts
    exact ⟨count, last, hlast, hpass.trans hrun.symm,
      (accounts hlastTexts).fails fault (congrArg Prod.snd hpass)⟩

end Session

end Mailbox
