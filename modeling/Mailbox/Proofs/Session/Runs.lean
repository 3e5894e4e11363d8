import Mailbox.Proofs.Session.Pass
set_option autoImplicit false

/-!
# What passes read and keep

A response reads the scene of a session: its machine, the values that wait, and its transcript.  It
neither reads nor changes the books: the limit, the count of steps, and the trace.  Main statements:
sessions with the same scene respond alike, passes made one after the other are counted together,
what passes keep between two sessions runs keep too, and a run that is taken as far as it goes comes
to one end.
-/

namespace Mailbox.Session

/-! ## Scene and books -/

/-- A session with the books of another. -/
def withBooks (s books : Session) : Session :=
  { s with
    limit := books.limit
    steps := books.steps
    tracing := books.tracing
    trace := books.trace }

/-- Sessions whose machines, values and transcripts are equal. -/
structure SameScene (s t : Session) : Prop where
  machine_eq : s.machine = t.machine
  input_eq : s.input = t.input
  transcript_eq : s.transcript = t.transcript

theorem withBooks_sameScene (s books : Session) : (s.withBooks books).SameScene s :=
  ⟨rfl, rfl, rfl⟩

theorem SameScene.eq_withBooks {s t : Session} (h : s.SameScene t) : s = t.withBooks s := by
  obtain ⟨hmachine, hinput, htranscript⟩ := h
  rw [withBooks, ← hmachine, ← hinput, ← htranscript]

theorem supplyNumber_withBooks {s : Session} (h : s.machine.status = .awaitingNumber)
    (books : Session) :
    (s.withBooks books).supplyNumber = (s.supplyNumber.1.withBooks books, s.supplyNumber.2) := by
  have hstatus : (s.withBooks books).machine.status = .awaitingNumber := h
  rcases hr : s.input.readNumber with ⟨result, rest⟩
  have hread : (s.withBooks books).input.readNumber = (result, rest) := hr
  cases result with
  | error cause =>
    rw [supplyNumber_of_error hr, supplyNumber_of_error hread]
    rfl
  | ok value =>
    rw [supplyNumber_of_ok h hr, supplyNumber_of_ok hstatus hread]
    rfl

theorem supplyChar_withBooks {s : Session} (h : s.machine.status = .awaitingChar)
    (books : Session) :
    (s.withBooks books).supplyChar = (s.supplyChar.1.withBooks books, s.supplyChar.2) := by
  have hstatus : (s.withBooks books).machine.status = .awaitingChar := h
  rcases hr : s.input.readChar with ⟨result, rest⟩
  have hread : (s.withBooks books).input.readChar = (result, rest) := hr
  cases result with
  | error cause =>
    rw [supplyChar_of_error hr, supplyChar_of_error hread]
    rfl
  | ok c =>
    rw [supplyChar_of_ok h hr, supplyChar_of_ok hstatus hread]
    rfl

/-- A response is the same whatever the books say, and leaves them as they are. -/
theorem respond_withBooks (s books : Session) :
    (s.withBooks books).respond = (s.respond.1.withBooks books, s.respond.2) := by
  have hmachine : (s.withBooks books).machine = s.machine := rfl
  have hannounce : (s.withBooks books).announce = s.announce.withBooks books := rfl
  unfold respond
  rw [hmachine]
  cases hs : s.machine.status with
  | awaitingNumber =>
    rw [hannounce]
    exact supplyNumber_withBooks (s := s.announce) hs books
  | awaitingChar =>
    rw [hannounce]
    exact supplyChar_withBooks (s := s.announce) hs books
  | _ => rfl

theorem respond_keeps_books (s : Session) : s.respond.1.withBooks s = s.respond.1 :=
  (congrArg Prod.fst (respond_withBooks s s)).symm

/-- Sessions with the same scene respond alike. -/
theorem SameScene.respond {s t : Session} (h : s.SameScene t) :
    s.respond.1.SameScene t.respond.1 ∧ s.respond.2 = t.respond.2 := by
  rw [h.eq_withBooks, respond_withBooks]
  exact ⟨withBooks_sameScene _ _, rfl⟩

theorem limit_respond (s : Session) : s.respond.1.limit = s.limit :=
  (congrArg limit (respond_keeps_books s)).symm

theorem limit_pass (s : Session) : s.pass.1.limit = s.limit := by
  rcases pass_cases s with ⟨limit, _, _, hpass⟩ | ⟨_, hpass⟩
  · rw [hpass]
  · rw [hpass, limit_respond]
    rfl

theorem limit_runFor (s : Session) (count : Nat) : (s.runFor count).1.limit = s.limit :=
  runFor_induction (P := fun t => t.limit = s.limit) (fun t h => (limit_pass t).trans h) rfl count

/-- Without a limit, every pass makes a step. -/
theorem pass_of_no_limit {s : Session} (h : s.limit = none) : s.pass = s.step.respond := by
  rcases pass_cases s with ⟨limit, hlimit, _, _⟩ | ⟨_, hpass⟩
  · exact absurd (h.symm.trans hlimit) (by simp)
  · exact hpass

theorem steps_pass_of_no_limit {s : Session} (h : s.limit = none) :
    s.pass.1.steps = s.steps + 1 := by
  rw [pass_of_no_limit h, steps_respond]
  rfl

/-! ## Counting passes -/

variable {s t : Session} {outcome : Outcome} {count : Nat}

theorem runFor_add_of_some (h : s.runFor count = (t, some outcome)) (more : Nat) :
    s.runFor (count + more) = (t, some outcome) := by
  induction count generalizing s with
  | zero => exact absurd (congrArg Prod.snd h) (by simp)
  | succ count ih =>
    rw [Nat.add_right_comm]
    rcases hpass : s.pass with ⟨next, result⟩
    cases result with
    | none =>
      rw [runFor_succ_of_none hpass] at h ⊢
      exact ih h
    | some result =>
      rw [runFor_succ_of_some hpass] at h ⊢
      exact h

theorem runFor_add_of_none (h : s.runFor count = (t, none)) (more : Nat) :
    s.runFor (count + more) = t.runFor more := by
  induction count generalizing s with
  | zero =>
    obtain rfl : s = t := congrArg Prod.fst h
    rw [Nat.zero_add]
  | succ count ih =>
    rw [Nat.add_right_comm]
    rcases hpass : s.pass with ⟨next, result⟩
    cases result with
    | none =>
      rw [runFor_succ_of_none hpass] at h ⊢
      exact ih h
    | some result =>
      rw [runFor_succ_of_some hpass] at h
      exact absurd (congrArg Prod.snd h) (by simp)

theorem steps_of_runFor_eq_none (h : s.runFor count = (t, none)) : t.steps = s.steps + count := by
  have hsteps := (runFor_stops s count).2 (congrArg Prod.snd h)
  rwa [h] at hsteps

/-! ## Two runs side by side -/

/-- A relation that a pass has brought about, with the same outcome, and that passes keep. -/
theorem runFor_succ_alike {R : Session → Session → Prop} (hpass : R s.pass.1 t.pass.1)
    (houtcome : s.pass.2 = t.pass.2)
    (hrest : ∀ a b, R a b →
      R (a.runFor count).1 (b.runFor count).1 ∧ (a.runFor count).2 = (b.runFor count).2) :
    R (s.runFor (count + 1)).1 (t.runFor (count + 1)).1 ∧
      (s.runFor (count + 1)).2 = (t.runFor (count + 1)).2 := by
  rcases hs : s.pass with ⟨next, result⟩
  rcases ht : t.pass with ⟨nextOther, resultOther⟩
  rw [hs, ht] at hpass houtcome
  obtain rfl : result = resultOther := houtcome
  cases result with
  | none =>
    rw [runFor_succ_of_none hs, runFor_succ_of_none ht]
    exact hrest next nextOther hpass
  | some outcome =>
    rw [runFor_succ_of_some hs, runFor_succ_of_some ht]
    exact ⟨hpass, rfl⟩

/-- A relation that every pass keeps, with the same outcome, is kept by any number of passes. -/
theorem runFor_alike {R : Session → Session → Prop}
    (keep : ∀ a b, R a b → R a.pass.1 b.pass.1 ∧ a.pass.2 = b.pass.2) (h : R s t) (count : Nat) :
    R (s.runFor count).1 (t.runFor count).1 ∧ (s.runFor count).2 = (t.runFor count).2 := by
  induction count generalizing s t with
  | zero => exact ⟨h, rfl⟩
  | succ count ih => exact runFor_succ_alike (keep s t h).1 (keep s t h).2 fun a b hab => ih hab

/-- A relation between sessions with as many steps, kept by every pass with the same outcome, is
kept by any number of runs, and their outcomes are the same. -/
theorem afterRuns_alike {R : Session → Session → Prop} (hsteps : ∀ a b, R a b → a.steps = b.steps)
    (keep : ∀ a b, R a b → R a.pass.1 b.pass.1 ∧ a.pass.2 = b.pass.2) (h : R s t) (runs : Nat) :
    R (s.afterRuns runs) (t.afterRuns runs) ∧ (s.afterRuns runs).run.2 = (t.afterRuns runs).run.2 := by
  have hrun : ∀ a b, R a b → R a.run.1 b.run.1 ∧ a.run.2 = b.run.2 := by
    intro a b hab
    rw [run, run, hsteps a b hab]
    exact runFor_alike keep hab _
  have hruns : R (s.afterRuns runs) (t.afterRuns runs) := by
    induction runs with
    | zero => exact h
    | succ runs ih => exact (hrun _ _ ih).1
  exact ⟨hruns, (hrun _ _ hruns).2⟩

/-! ## Ends of runs -/

/-- Passes from the session on, made until the run ends, end it in this way. -/
def Returns (s t : Session) (outcome : Outcome) : Prop :=
  ∃ count, s.runFor count = (t, some outcome)

theorem returns_of_run (h : s.run = (t, some outcome)) : s.Returns t outcome :=
  ⟨_, h⟩

theorem returns_iff_of_none (h : s.runFor count = (t, none)) {final : Session} :
    s.Returns final outcome ↔ t.Returns final outcome := by
  constructor
  · rintro ⟨total, htotal⟩
    -- More passes than it takes to the end do no harm, so those before `t` can be added.
    refine ⟨total, ?_⟩
    rw [← runFor_add_of_none h, Nat.add_comm]
    exact runFor_add_of_some htotal count
  · rintro ⟨more, hmore⟩
    exact ⟨count + more, (runFor_add_of_none h more).trans hmore⟩

/-- Without a limit, a run ends after as many passes as it makes steps. -/
theorem exists_passes_of_no_limit (hlimit : s.limit = none)
    (h : s.runFor count = (t, some outcome)) :
    ∃ passes, 0 < passes ∧ passes ≤ count ∧ t.steps = s.steps + passes ∧
      s.runFor passes = (t, some outcome) := by
  induction count generalizing s with
  | zero => exact absurd (congrArg Prod.snd h) (by simp)
  | succ count ih =>
    have hsteps := steps_pass_of_no_limit hlimit
    have hnext := (limit_pass s).trans hlimit
    rcases hpass : s.pass with ⟨next, result⟩
    rw [hpass] at hsteps hnext
    cases result with
    | none =>
      rw [runFor_succ_of_none hpass] at h
      obtain ⟨passes, _, hle, hcount, hrun⟩ := ih hnext h
      refine ⟨passes + 1, Nat.succ_pos _, Nat.succ_le_succ hle, ?_,
        (runFor_succ_of_none hpass passes).trans hrun⟩
      rw [hcount, hsteps]
      omega
    | some result =>
      rw [runFor_succ_of_some hpass] at h
      obtain rfl : next = t := congrArg Prod.fst h
      refine ⟨1, Nat.one_pos, Nat.succ_le_succ (Nat.zero_le count), hsteps, ?_⟩
      rw [← h]
      exact runFor_succ_of_some hpass 0

/-- Without a limit, `run` comes to the end of the run unless the step counter is full before. -/
theorem run_eq_some_iff (hlimit : s.limit = none) :
    s.run = (t, some outcome) ↔ s.Returns t outcome ∧ t.steps ≤ capacity := by
  constructor
  · intro h
    obtain ⟨passes, hpos, hle, hcount, _⟩ := exists_passes_of_no_limit hlimit h
    exact ⟨returns_of_run h, by omega⟩
  · rintro ⟨⟨count, h⟩, hle⟩
    obtain ⟨passes, _, _, hcount, hpasses⟩ := exists_passes_of_no_limit hlimit h
    have hcapacity : capacity - s.steps = passes + (capacity - t.steps) := by omega
    rw [run, hcapacity]
    exact runFor_add_of_some hpasses _

/-! ## Transcripts -/

/-- A session with another transcript. -/
def withTranscript (s : Session) (t : Transcript) : Session :=
  { s with transcript := t }

theorem supplyNumber_withTranscript {s : Session} (h : s.machine.status = .awaitingNumber) :
    ∃ items, ∀ t, (s.withTranscript t).supplyNumber =
      (s.supplyNumber.1.withTranscript (t.writeAll items), s.supplyNumber.2) := by
  rcases hr : s.input.readNumber with ⟨result, rest⟩
  have hread : ∀ t, (s.withTranscript t).input.readNumber = (result, rest) := fun _ => hr
  cases result with
  | error cause =>
    refine ⟨[], fun t => ?_⟩
    rw [supplyNumber_of_error hr, supplyNumber_of_error (hread t)]
    rfl
  | ok value =>
    refine ⟨[.echo value.decimal], fun t => ?_⟩
    rw [supplyNumber_of_ok h hr, supplyNumber_of_ok (s := s.withTranscript t) h (hread t)]
    rfl

theorem supplyChar_withTranscript {s : Session} (h : s.machine.status = .awaitingChar) :
    ∃ items, ∀ t, (s.withTranscript t).supplyChar =
      (s.supplyChar.1.withTranscript (t.writeAll items), s.supplyChar.2) := by
  rcases hr : s.input.readChar with ⟨result, rest⟩
  have hread : ∀ t, (s.withTranscript t).input.readChar = (result, rest) := fun _ => hr
  cases result with
  | error cause =>
    refine ⟨[], fun t => ?_⟩
    rw [supplyChar_of_error hr, supplyChar_of_error (hread t)]
    rfl
  | ok c =>
    refine ⟨[.echo (String.singleton c)], fun t => ?_⟩
    rw [supplyChar_of_ok h hr, supplyChar_of_ok (s := s.withTranscript t) h (hread t)]
    rfl

theorem announce_withTranscript (s : Session) (t : Transcript) :
    (s.withTranscript t).announce =
      s.announce.withTranscript (t.writeAll s.machine.status.banner?.toList) := by
  simp only [announce, withTranscript, Transcript.writeStatus]
  cases s.machine.status.banner? <;> rfl

/-- A response writes the same items whatever the transcript is, and does not read it. -/
theorem respond_withTranscript (s : Session) :
    ∃ items, ∀ t, (s.withTranscript t).respond =
      (s.respond.1.withTranscript (t.writeAll items), s.respond.2) := by
  have hmachine : ∀ t, (s.withTranscript t).machine = s.machine := fun _ => rfl
  have hannounce := announce_withTranscript s
  unfold respond
  simp only [hmachine]
  cases hs : s.machine.status with
  | running => exact ⟨[], fun _ => rfl⟩
  | producedNumber => exact ⟨[.number (s.machine.outputNumber?.getD 0)], fun _ => rfl⟩
  | producedChar => exact ⟨[.char (charOfCode s.machine.outputChar?)], fun _ => rfl⟩
  | awaitingNumber =>
    obtain ⟨items, hitems⟩ := supplyNumber_withTranscript (s := s.announce) hs
    refine ⟨s.machine.status.banner?.toList ++ items, fun t => ?_⟩
    simp only [hannounce, hitems, Transcript.writeAll_append]
  | awaitingChar =>
    obtain ⟨items, hitems⟩ := supplyChar_withTranscript (s := s.announce) hs
    refine ⟨s.machine.status.banner?.toList ++ items, fun t => ?_⟩
    simp only [hannounce, hitems, Transcript.writeAll_append]
  | halted | endOfMemory | invalidInstruction =>
    exact ⟨s.machine.status.banner?.toList, fun t => by simp only [hannounce]⟩

theorem pass_withTranscript (s : Session) :
    ∃ items, ∀ t, (s.withTranscript t).pass =
      (s.pass.1.withTranscript (t.writeAll items), s.pass.2) := by
  have hlimit : ∀ t, (s.withTranscript t).exhaustedLimit? = s.exhaustedLimit? := fun _ => rfl
  unfold pass
  simp only [hlimit]
  cases s.exhaustedLimit? with
  | some limit => exact ⟨[], fun _ => rfl⟩
  | none => exact respond_withTranscript s.step

/-- A pass writes items to the transcript and does nothing else to it. -/
theorem exists_items_pass (s : Session) :
    ∃ items, s.pass.1.transcript = s.transcript.writeAll items := by
  obtain ⟨items, hitems⟩ := pass_withTranscript s
  exact ⟨items, congrArg (fun r => r.1.transcript) (hitems s.transcript)⟩

/-- Passes write items behind the text that is there. -/
theorem exists_items_runFor (s : Session) (count : Nat) :
    ∃ items, (s.runFor count).1.transcript = s.transcript.writeAll items := by
  refine runFor_induction (P := fun t => ∃ items, t.transcript = s.transcript.writeAll items)
    ?_ ⟨[], rfl⟩ count
  rintro t ⟨items, hitems⟩
  obtain ⟨more, hmore⟩ := exists_items_pass t
  exact ⟨items ++ more, by rw [hmore, hitems, Transcript.writeAll_append]⟩

end Mailbox.Session

namespace Mailbox.Transcript

theorem minimal_writeAll (t : Transcript) (items : List Item) :
    (t.writeAll items).minimal = t.minimal := by
  induction items generalizing t with
  | nil => rfl
  | cons item items ih => rw [writeAll_cons, ih, minimal_write]

theorem text_isPrefix_line (t : Transcript) (s : String) :
    t.text.toList <+: (t.line s).text.toList := by
  unfold line
  split <;> simp

theorem text_isPrefix_write (t : Transcript) (item : Item) :
    t.text.toList <+: (t.write item).text.toList := by
  cases item with
  | number value => exact text_isPrefix_line t _
  | char c => simp [write]
  | echo value =>
    simp only [write]
    split
    · exact List.prefix_rfl
    · exact text_isPrefix_line t _
  | banner words tint =>
    simp only [write]
    split
    · exact List.prefix_rfl
    · exact text_isPrefix_line t _

/-- What is written stays at the front of the text. -/
theorem text_isPrefix_writeAll (t : Transcript) (items : List Item) :
    t.text.toList <+: (t.writeAll items).text.toList := by
  induction items generalizing t with
  | nil => exact List.prefix_rfl
  | cons item items ih => exact (text_isPrefix_write t item).trans (ih _)

end Mailbox.Transcript
