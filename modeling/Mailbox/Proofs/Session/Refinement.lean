import Mailbox.Proofs.Session.Pass
set_option autoImplicit false

/-!
# Sessions refine executions

A session is an execution of its machine, and its transcript is the text of that execution.  Main
statement: this holds at every point of any number of runs, whatever stopped the runs before.

Normative source: SPEC_FULL.md, sections 5 and A6.8.
-/

namespace Mailbox

/-! ## Transcripts -/

namespace Transcript

/-- A transcript has the text of events, and its flag says whether the last line is open. -/
structure Shows (t : Transcript) (minimal colored : Bool) (events : List Event) : Prop where
  minimal_eq : t.minimal = minimal
  colored_eq : t.colored = colored
  text_eq : t.text = Event.render minimal colored events
  lineOpen_eq : t.lineOpen = Event.isOpen t.text

variable {t : Transcript} {minimal colored : Bool} {events : List Event}

theorem shows_blank (minimal colored : Bool) : (blank minimal colored).Shows minimal colored [] :=
  ⟨rfl, rfl, rfl, rfl⟩

/-- A transcript whose flag is right adds a line the way a text does. -/
theorem text_line (h : t.lineOpen = Event.isOpen t.text) (s : String) :
    (t.line s).text = Event.addLine t.text s := by
  unfold Transcript.line Event.addLine Event.closed
  rw [h]

theorem lineOpen_line (t : Transcript) (s : String) :
    (t.line s).lineOpen = Event.isOpen (t.line s).text := by
  simp [Transcript.line, Event.isOpen]

/-- A status has no banner, or one with the words and in the colour of its line. -/
theorem banner?_cases (status : Status) :
    status.banner? = none ∧ Event.bannerWords? status = none ∨
      ∃ words tint, status.banner? = some (.banner words tint) ∧
        Event.bannerWords? status = some (Text.alignRight 12 words) ∧ '\x1b' ∉ words.toList ∧
        tint.code = if status.isFault then "\x1b[31m" else "\x1b[36m" := by
  cases status with
  | running => exact Or.inl ⟨rfl, rfl⟩
  | producedNumber => exact Or.inl ⟨rfl, rfl⟩
  | producedChar => exact Or.inl ⟨rfl, rfl⟩
  | awaitingNumber => exact Or.inr ⟨_, _, rfl, by decide, by decide, rfl⟩
  | awaitingChar => exact Or.inr ⟨_, _, rfl, by decide, by decide, rfl⟩
  | halted => exact Or.inr ⟨_, _, rfl, by decide, by decide, rfl⟩
  | endOfMemory => exact Or.inr ⟨_, _, rfl, by decide, by decide, rfl⟩
  | invalidInstruction => exact Or.inr ⟨_, _, rfl, by decide, by decide, rfl⟩

/-- A status with a banner gets a line of its own, unless the transcript is minimal. -/
theorem writeStatus_eq (t : Transcript) (status : Status) :
    t.writeStatus status =
      if t.minimal then t else (Event.banner? t.colored status).elim t t.line := by
  unfold writeStatus Event.banner?
  rcases banner?_cases status with ⟨hnone, hwords⟩ | ⟨words, tint, hsome, hwords, hplain, htint⟩
  · rw [hnone, hwords]
    exact (ite_self t).symm
  · rw [hsome, hwords]
    simp only [write, bannerText, tint.kept_eq_self hplain, htint, Option.map_some,
      Option.elim_some]
    rfl

/-- Writing an event keeps the options and adds what a text gets, and the flag stays right. -/
theorem Shows.writeEvent (h : t.Shows minimal colored events) (event : Event) :
    (t.writeEvent event).Shows minimal colored (events ++ [event]) := by
  have hrender : Event.render minimal colored (events ++ [event]) =
      Event.write t.minimal t.colored t.text event := by
    rw [Event.render_append, h.minimal_eq, h.colored_eq, h.text_eq]
    rfl
  have hline : ∀ s, Event.write t.minimal t.colored t.text event = Event.addLine t.text s →
      (t.line s).Shows minimal colored (events ++ [event]) := by
    intro s hs
    exact ⟨h.minimal_eq, h.colored_eq, by rw [hrender, hs, text_line h.lineOpen_eq],
      lineOpen_line t s⟩
  have hsame : Event.write t.minimal t.colored t.text event = t.text →
      t.Shows minimal colored (events ++ [event]) := by
    intro hs
    exact ⟨h.minimal_eq, h.colored_eq, by rw [hrender, hs], h.lineOpen_eq⟩
  cases event with
  | number value => exact hline _ rfl
  | char code =>
    refine ⟨h.minimal_eq, h.colored_eq, ?_, ?_⟩
    · rw [hrender]
      simp only [Transcript.writeEvent, write, charOfCode_toCode?]
      rfl
    · exact (Event.isOpen_push _ _).symm
  | reported status =>
    rw [Transcript.writeEvent, writeStatus_eq]
    cases hm : t.minimal with
    | true => exact hsame (by simp [Event.write, hm])
    | false =>
      cases hb : Event.banner? t.colored status with
      | none => exact hsame (by simp [Event.write, hm, hb])
      | some line => exact hline line (by simp [Event.write, hm, hb])
  | accepted value =>
    unfold Transcript.writeEvent write
    cases hm : t.minimal with
    | true => exact hsame (by simp [Event.write, hm])
    | false => exact hline _ (by simp [Event.write, hm])

/-- Writing events extends the text by them. -/
theorem Shows.writeEvents (h : t.Shows minimal colored events) (more : List Event) :
    (more.foldl Transcript.writeEvent t).Shows minimal colored (events ++ more) := by
  induction more generalizing t events with
  | nil => simpa using h
  | cons event more ih => simpa using ih (h.writeEvent event)

end Transcript

/-! ## Sessions -/

namespace Session

/-- A minimal session announces nothing. -/
theorem announce_of_minimal {s : Session} (h : s.transcript.minimal) : s.announce = s := by
  unfold announce
  rw [Transcript.writeStatus_eq, if_pos h]

variable {image : Image} {input : Input} {options : SessionOptions}

/-- A session has made the execution of its image and its input that has as many steps, and shows
the text of it. -/
structure Follows (s : Session) (image : Image) (input : Input) (options : SessionOptions) :
    Prop where
  steps_eq : s.steps = (Execution.after image input.waiting s.steps).operations.count .step
  machine_eq : s.machine = (Execution.after image input.waiting s.steps).machine image
  waiting_eq : s.input.waiting = (Execution.after image input.waiting s.steps).waiting
  shows : s.transcript.Shows options.minimal options.colored
    ((Execution.after image input.waiting s.steps).events image)

theorem follows_start (image : Image) (input : Input) (options : SessionOptions) :
    (start image input options).Follows image input options :=
  ⟨rfl, rfl, rfl, Transcript.shows_blank _ _⟩

theorem Follows.invariant {s : Session} (h : s.Follows image input options) :
    s.machine.Invariant := by
  rw [h.machine_eq]
  exact Machine.invariant_performAll image _

/-- A turn of a session is the next turn of its execution. -/
theorem Follows.turned {s : Session} (h : s.Follows image input options) :
    (s.turned (Turn.choose s.machine.step.status s.input.waiting)).Follows image input options := by
  have hupcoming : Turn.choose s.machine.step.status s.input.waiting =
      (Execution.after image input.waiting s.steps).upcoming image := by
    rw [h.machine_eq, h.waiting_eq]
    rfl
  rw [hupcoming]
  refine ⟨(Execution.count_step_after image input.waiting _).symm, ?_, rfl, ?_⟩
  · have hnext := Execution.machine_next image (Execution.after image input.waiting s.steps)
    rw [← h.machine_eq] at hnext
    exact hnext.symm
  · have hnext := Execution.events_next image (Execution.after image input.waiting s.steps)
    rw [← h.machine_eq] at hnext
    have hshows := h.shows.writeEvents (s.machine.events
      ((Execution.after image input.waiting s.steps).upcoming image).1.operations)
    rw [← hnext] at hshows
    exact hshows

theorem Follows.pass {s : Session} (h : s.Follows image input options) :
    s.pass.1.Follows image input options := by
  rcases pass_cases s with ⟨limit, _, _, hpass⟩ | ⟨_, hpass⟩
  · rw [hpass]
    exact h
  · rw [hpass, respond_step h.invariant.step]
    exact h.turned

/-- At every point of any number of runs a session has made an execution and shows its text, and a
run stops at the end of the program, at the limit, or where a value is missing or is of no use. -/
theorem runs_follow_execution (image : Image) (input : Input) (options : SessionOptions)
    (runs count : Nat) :
    let s := (start image input options).afterRuns runs
    (s.runFor count).1.Follows image input options ∧
      s.run.2.elim (capacity ≤ s.run.1.steps) s.run.1.Stopped := by
  have hkeep : ∀ s : Session, s.Follows image input options →
      s.pass.1.Follows image input options := fun _ h => h.pass
  have hfollows := afterRuns_induction hkeep (follows_start image input options) runs
  exact ⟨runFor_induction hkeep hfollows count, run_stops _⟩

end Session

end Mailbox
