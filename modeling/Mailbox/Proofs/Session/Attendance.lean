import Mailbox.Proofs.Session.Answers
set_option autoImplicit false

/-!
# Attended programs

A program is attended when each value that it asks for is answered by the next of the given ones.
What it comes to is said of the machine and of the values alone: there is no session, no limit and
no transcript.  Main statements: the passes of a run go where the attended program goes, and a run
that ends has halted if and only if the attended program halts within the limit.
-/

namespace Mailbox

/-- The machine that an attended program has come to after a number of steps, and the values that
are left. -/
inductive Attended (image : Image) (values : List Supply) : Nat → Machine → List Supply → Prop
  /-- Nothing has happened yet. -/
  | start : Attended image values 0 (.start image) values
  /-- The step asks for nothing. -/
  | quiet {n : Nat} {m : Machine} {rest : List Supply} : Attended image values n m rest →
      m.status.isTerminal = false → m.step.status.isAwaiting = false →
      Attended image values (n + 1) m.step rest
  /-- The step asks for a value, and the machine goes on with what the next value answers. -/
  | answered {n : Nat} {m : Machine} {supply : Supply} {rest : List Supply} {value : Word} :
      Attended image values n m (supply :: rest) → supply.Answers m.step.status value →
      Attended image values (n + 1) (m.step.accept value) rest

/-- The attended program halts, and makes no more steps than the limit allows. -/
def HaltsWithin (limit? : Option Nat) (image : Image) (values : List Supply) : Prop :=
  ∃ n m rest, Attended image values n m rest ∧ m.status = .halted ∧ ∀ limit ∈ limit?, n ≤ limit

namespace Attended

variable {image : Image} {values rest : List Supply} {n : Nat} {m : Machine}

theorem invariant (h : Attended image values n m rest) : m.Invariant := by
  induction h with
  | start => exact Machine.invariant_start image
  | quiet _ _ _ ih => exact ih.step
  | answered _ hanswers ih =>
    exact .of_running rfl (ih.step.pc_lt_of_isAwaiting hanswers.isAwaiting)

theorem isReady (h : Attended image values n m rest) (hover : m.status.isTerminal = false) :
    m.isReady := by
  refine Machine.isReady_iff.2 ⟨hover, ?_⟩
  cases h with
  | start | answered => rfl
  | quiet _ _ ha => exact ha

end Attended

namespace Machine

variable {m : Machine}

/-- The outcome of a run that has come to a machine. -/
def ending? (m : Machine) : Option Outcome :=
  if m.status.isTerminal then some (.ended m.status) else none

theorem ending?_of_isReady (h : m.isReady) : m.ending? = none := by
  rw [ending?, (isReady_iff.1 h).1]
  rfl

/-- A machine whose next step asks for a value is not over. -/
theorem ending?_of_asks (h : m.step.status.isAwaiting) : m.ending? = none := by
  refine if_neg fun hover => ?_
  rw [step_of_isTerminal hover, Status.isAwaiting_of_isTerminal hover] at h
  cases h

end Machine

namespace Session

variable {image : Image} {values : List Supply} {s t : Session}

/-! ## From a run to the attended program -/

/-- A session in the middle of a run: it has come to where the attended program comes to in as many
steps. -/
structure UnderWay (image : Image) (values : List Supply) (s : Session) : Prop where
  attended : Attended image values s.steps s.machine s.input.waiting
  not_over : s.machine.status.isTerminal = false
  within : ∀ limit ∈ s.limit, s.steps ≤ limit

theorem underWay_start (image : Image) (input : Input) (options : SessionOptions) :
    (start image input options).UnderWay image input.waiting :=
  ⟨.start, rfl, fun _ _ => Nat.zero_le _⟩

theorem UnderWay.of_passing {machine : Machine} {waiting : List Supply}
    (h : s.UnderWay image values) (hpassing : s.Passing machine waiting none) :
    s.MayStep ∧ Attended image values (s.steps + 1) machine waiting ∧
      machine.status.isTerminal = false := by
  cases hpassing with
  | quiet hmay hready =>
    obtain ⟨hterminal, hawaiting⟩ := Machine.isReady_iff.1 hready
    exact ⟨hmay, .quiet h.attended h.not_over hawaiting, hterminal⟩
  | answered hmay hcons hanswers => exact ⟨hmay, .answered (hcons ▸ h.attended) hanswers, rfl⟩

/-- A pass that does not end the run goes where the attended program goes. -/
theorem UnderWay.pass (h : s.UnderWay image values) (hpass : s.pass = (t, none)) :
    t.UnderWay image values := by
  have hpassing := s.passing
  have hsteps := steps_of_runFor_eq_none ((runFor_one s).trans hpass)
  have hkept := limit_pass s
  rw [hpass] at hpassing hkept
  obtain ⟨hmay, hattended, hover⟩ := h.of_passing hpassing
  refine ⟨hsteps ▸ hattended, hover, fun limit hl => ?_⟩
  rw [hsteps]
  exact hmay limit (hkept ▸ hl)

theorem UnderWay.runFor {count : Nat} (h : s.UnderWay image values)
    (hrun : s.runFor count = (t, none)) : t.UnderWay image values := by
  induction count generalizing s with
  | zero =>
    obtain rfl : s = t := congrArg Prod.fst hrun
    exact h
  | succ count ih =>
    rcases hpass : s.pass with ⟨next, _ | outcome⟩
    · rw [runFor_succ_of_none hpass] at hrun
      exact ih (h.pass hpass) hrun
    · rw [runFor_succ_of_some hpass] at hrun
      cases hrun

variable {input : Input} {options : SessionOptions} {outcome : Outcome}

/-- A run that ends does so in a pass of a session that is under way. -/
theorem exists_underWay (h : (start image input options).run = (t, some outcome)) :
    ∃ last : Session, last.UnderWay image input.waiting ∧ last.limit = options.limit ∧
      last.Passing t.machine t.input.waiting (some outcome) := by
  obtain ⟨count, last, _, hlast, hpass⟩ := exists_last_pass h
  have hkept := limit_runFor (start image input options) count
  have hpassing := last.passing
  rw [hlast] at hkept
  rw [hpass] at hpassing
  exact ⟨last, (underWay_start image input options).runFor hlast, hkept, hpassing⟩

/-! ## From the attended program to a run -/

theorem mayStep_of_runFor {n : Nat} (h : (start image input options).runFor n = (t, none))
    (hlimit : ∀ limit ∈ options.limit, n < limit) : t.MayStep := by
  intro limit hl
  have hkept : t.limit = options.limit :=
    (congrArg (fun r => r.1.limit) h).symm.trans (limit_runFor (start image input options) n)
  have hsteps : t.steps = n := (steps_of_runFor_eq_none h).trans (Nat.zero_add n)
  rw [hsteps]
  exact hlimit limit (hkept ▸ hl)

/-- Where the attended program comes to within the limit, a run of as many passes comes to. -/
theorem exists_runFor_of_attended {n : Nat} {m : Machine} {rest : List Supply}
    (h : Attended image input.waiting n m rest) (hlimit : ∀ limit ∈ options.limit, n ≤ limit) :
    ∃ t, (start image input options).runFor n = (t, m.ending?) ∧ t.machine = m ∧
      t.input.waiting = rest := by
  induction h with
  | start => exact ⟨start image input options, rfl, rfl, rfl⟩
  | @quiet n m rest _ hover hawaiting ih =>
    obtain ⟨t, ht, rfl, rfl⟩ := ih fun limit hl => Nat.le_of_succ_le (hlimit limit hl)
    rw [Machine.ending?, hover] at ht
    obtain ⟨hmachine, hwaiting, houtcome⟩ :=
      t.passing.of_not_isAwaiting (mayStep_of_runFor ht hlimit) hawaiting
    have hending : t.pass.2 = t.machine.step.ending? := by
      rcases houtcome with ⟨hready, hnone⟩ | ⟨hterminal, hended⟩
      · rw [hnone, Machine.ending?_of_isReady hready]
      · rw [hended, Machine.ending?, if_pos hterminal]
    exact ⟨t.pass.1, (runFor_add_of_none ht 1).trans ((runFor_one t).trans (Prod.ext rfl hending)),
      hmachine, hwaiting⟩
  | @answered n m supply rest value _ hanswers ih =>
    obtain ⟨t, ht, rfl, hwaiting⟩ := ih fun limit hl => Nat.le_of_succ_le (hlimit limit hl)
    rw [Machine.ending?_of_asks hanswers.isAwaiting] at ht
    obtain ⟨htail, haccepts⟩ :=
      t.passing.of_isAwaiting (mayStep_of_runFor ht hlimit) hanswers.isAwaiting
    rw [hwaiting] at htail haccepts
    obtain ⟨hmachine, hnone⟩ := (haccepts value).1 ⟨supply, rfl, hanswers⟩
    exact ⟨t.pass.1, (runFor_add_of_none ht 1).trans ((runFor_one t).trans (Prod.ext rfl hnone)),
      hmachine, htail⟩

/-- A run ends in one way. -/
theorem Returns.unique {other : Session} {otherOutcome : Outcome} (h : s.Returns t outcome)
    (h' : s.Returns other otherOutcome) : t = other ∧ outcome = otherOutcome := by
  obtain ⟨count, hcount⟩ := h
  obtain ⟨passes, hpasses⟩ := h'
  have hsame := runFor_add_of_some hcount passes
  rw [Nat.add_comm, runFor_add_of_some hpasses count] at hsame
  obtain ⟨hfinal, houtcome⟩ := Prod.mk.inj hsame
  exact ⟨hfinal.symm, (Option.some.inj houtcome).symm⟩

/-- A run that ends has halted if and only if the attended program halts within the limit. -/
theorem haltsWithin_iff (h : (start image input options).run = (t, some outcome)) :
    HaltsWithin options.limit image input.waiting ↔ outcome = .ended .halted := by
  constructor
  · rintro ⟨n, m, rest, hattended, hhalted, hlimit⟩
    obtain ⟨other, hother, _⟩ := exists_runFor_of_attended hattended hlimit
    rw [Machine.ending?, hhalted] at hother
    exact ((returns_of_run h).unique ⟨n, hother⟩).2
  · rintro rfl
    obtain ⟨last, hunder, hkept, hpassing⟩ := exists_underWay h
    obtain ⟨hmay, hterminal, _, hhalted⟩ := hpassing.of_ended
    exact ⟨last.steps + 1, last.machine.step, last.input.waiting,
      .quiet hunder.attended hunder.not_over (Status.isAwaiting_of_isTerminal hterminal),
      hhalted.symm, fun limit hl => hmay limit (hkept ▸ hl)⟩

end Session

end Mailbox
