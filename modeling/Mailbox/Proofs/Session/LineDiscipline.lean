import Mailbox.Proofs.Session.Refinement
set_option autoImplicit false

/-!
# Line discipline

Whatever a host calls on a transcript to write, and in whatever order, numbers, echoes and banners
have lines of their own, and characters follow what is there.  Main statement: after any sequence
of calls the flag of the transcript says whether its last line is open, a further call writes in
its place, and a minimal transcript is the same without the calls for echoes and banners.

Normative source: SPEC_FULL.md, section A6.8.
-/

namespace Mailbox

/-- What a transcript is called on to write: an item, or the banner of a status. -/
inductive Call where
  | item (item : Item)
  | status (status : Status)
  deriving DecidableEq, Repr

/-- A call to write what the program puts out. -/
def Call.isOutput : Call → Bool
  | .item (.number _) | .item (.char _) => true
  | .item (.echo _) | .item (.banner _ _) => false
  | .status _ => false

/-- The place of something in a text. -/
inductive Placement where
  /-- It is not written. -/
  | nowhere
  /-- A character behind the text. -/
  | behind (c : Char)
  /-- A line of its own. -/
  | ownLine (line : String)
  deriving DecidableEq, Repr

/-- What is written for a call, and where. -/
def Call.placement (minimal colored : Bool) : Call → Placement
  | .item (.number value) => .ownLine (toString value.val)
  | .item (.char c) => .behind c
  | .item (.echo value) => if minimal then .nowhere else .ownLine ("> " ++ value)
  | .item (.banner words tint) =>
    if minimal then .nowhere
    else .ownLine (if colored then tint.code ++ Text.alignRight 12 (tint.kept words) ++ Tint.reset
      else Text.alignRight 12 words)
  | .status s => if minimal then .nowhere else (Event.banner? colored s).elim .nowhere .ownLine

/-- What comes next in a text is at the beginning of a line. -/
def AtLineStart (text : String) : Prop :=
  text = "" ∨ ∃ front, text = front ++ "\n"

/-- A text with something put in its place.  A line of its own starts at the beginning of a line
and ends it; a newline goes before it only where a line is open. -/
inductive Placement.Extends (text : String) : Placement → String → Prop
  | nowhere : Extends text .nowhere text
  | behind (c : Char) : Extends text (.behind c) (text.push c)
  | onNewLine (line : String) : AtLineStart text →
      Extends text (.ownLine line) (text ++ line ++ "\n")
  | afterOpenLine (line : String) : ¬ AtLineStart text →
      Extends text (.ownLine line) (text ++ "\n" ++ line ++ "\n")

theorem isOpen_eq_false_iff (text : String) : Event.isOpen text = false ↔ AtLineStart text := by
  unfold Event.isOpen AtLineStart
  rcases List.eq_nil_or_concat text.toList with hnil | ⟨cs, c, hconcat⟩
  · simp [String.toList_eq_nil_iff.1 hnil]
  · have hne : text ≠ "" := fun h => by simp [h] at hconcat
    rw [hconcat]
    simp only [List.concat_eq_append, List.getLast?_append, List.getLast?_singleton,
      Option.some_or, Option.any_some, bne_eq_false_iff_eq, hne, false_or]
    constructor
    · rintro rfl
      exact ⟨String.ofList cs, String.toList_inj.1 (by simp [hconcat])⟩
    · rintro ⟨front, rfl⟩
      simpa using (congrArg List.getLast? hconcat).symm

namespace Transcript

/-- A transcript with something put in its place. -/
def place (t : Transcript) : Placement → Transcript
  | .nowhere => t
  | .behind c => { t with text := t.text.push c, lineOpen := c != '\n' }
  | .ownLine s => t.line s

/-- A transcript after a call. -/
def call (t : Transcript) : Call → Transcript
  | .item item => t.write item
  | .status s => t.writeStatus s

/-- A transcript after calls in order. -/
def callAll (t : Transcript) (calls : List Call) : Transcript :=
  calls.foldl call t

variable {t : Transcript}

theorem call_eq (t : Transcript) (next : Call) :
    t.call next = t.place (next.placement t.minimal t.colored) := by
  rcases next with (value | c | value | ⟨words, tint⟩) | s
  · rfl
  · rfl
  · cases h : t.minimal <;> simp [Transcript.call, write, Call.placement, place, h]
  · cases h : t.minimal <;>
      simp [Transcript.call, write, Call.placement, place, bannerText, h]
  · rw [Transcript.call, writeStatus_eq, Call.placement]
    cases t.minimal with
    | true => rfl
    | false => cases Event.banner? t.colored s <;> rfl

/-! ## The flag -/

/-- A transcript with these options whose flag says whether its last line is open. -/
structure Disciplined (t : Transcript) (minimal colored : Bool) : Prop where
  minimal_eq : t.minimal = minimal
  colored_eq : t.colored = colored
  lineOpen_eq : t.lineOpen = Event.isOpen t.text

variable {minimal colored : Bool}

theorem disciplined_blank (minimal colored : Bool) :
    (blank minimal colored).Disciplined minimal colored :=
  ⟨rfl, rfl, rfl⟩

theorem Disciplined.lineOpen_iff (h : t.Disciplined minimal colored) :
    t.lineOpen = true ↔ ¬ AtLineStart t.text := by
  rw [← isOpen_eq_false_iff, Bool.not_eq_false, h.lineOpen_eq]

theorem Disciplined.place (h : t.Disciplined minimal colored) (p : Placement) :
    (t.place p).Disciplined minimal colored := by
  cases p with
  | nowhere => exact h
  | behind c => exact ⟨h.minimal_eq, h.colored_eq, (Event.isOpen_push t.text c).symm⟩
  | ownLine s => exact ⟨h.minimal_eq, h.colored_eq, lineOpen_line t s⟩

theorem Disciplined.extends (h : t.Disciplined minimal colored) (p : Placement) :
    p.Extends t.text (t.place p).text := by
  cases p with
  | nowhere => exact .nowhere
  | behind c => exact .behind c
  | ownLine s =>
    simp only [Transcript.place, line]
    cases hopen : t.lineOpen with
    | false =>
      have hstart := mt h.lineOpen_iff.2 (by simp [hopen])
      exact .onNewLine s (Classical.not_not.1 hstart)
    | true => exact .afterOpenLine s (h.lineOpen_iff.1 hopen)

theorem Disciplined.call (h : t.Disciplined minimal colored) (next : Call) :
    (t.call next).Disciplined minimal colored ∧
      (next.placement minimal colored).Extends t.text (t.call next).text := by
  rw [call_eq, h.minimal_eq, h.colored_eq]
  exact ⟨h.place _, h.extends _⟩

/-! ## Sequences of calls -/

theorem Disciplined.callAll (h : t.Disciplined minimal colored) (calls : List Call) :
    (t.callAll calls).Disciplined minimal colored := by
  induction calls generalizing t with
  | nil => exact h
  | cons next calls ih => exact ih (h.call next).1

/-- A minimal transcript does nothing about a call that is not for output. -/
theorem call_of_not_isOutput (hminimal : t.minimal) {next : Call} (h : next.isOutput = false) :
    t.call next = t := by
  rw [call_eq, hminimal]
  rcases next with (value | c | value | ⟨words, tint⟩) | s
  · cases h
  · cases h
  all_goals rfl

theorem callAll_filter_isOutput (h : t.Disciplined true colored) (calls : List Call) :
    t.callAll (calls.filter Call.isOutput) = t.callAll calls := by
  induction calls generalizing t with
  | nil => rfl
  | cons next calls ih =>
    cases houtput : next.isOutput with
    | false =>
      have hsame := call_of_not_isOutput h.minimal_eq houtput
      rw [List.filter_cons_of_neg (by simp [houtput]), ih h]
      exact congrArg (Transcript.callAll · calls) hsame.symm
    | true =>
      rw [List.filter_cons_of_pos houtput]
      exact ih (h.call next).1

/-- After any sequence of calls the flag is set exactly if the text is not empty and does not end
in a newline.  What a further call writes stands behind the text if it is a character, and has a
line of its own otherwise, with a newline before it exactly if a line is open.  A minimal transcript
is the same without the calls that are not for output. -/
theorem callAll_keeps_lines (minimal colored : Bool) (calls : List Call) :
    let t := (blank minimal colored).callAll calls
    (t.lineOpen = true ↔ t.text ≠ "" ∧ ¬ ∃ front, t.text = front ++ "\n") ∧
      (∀ next : Call,
        (next.placement minimal colored).Extends t.text (t.call next).text) ∧
      (blank true colored).callAll calls =
        (blank true colored).callAll (calls.filter Call.isOutput) := by
  intro t
  have h := (disciplined_blank minimal colored).callAll calls
  have hfilter := callAll_filter_isOutput (disciplined_blank true colored) calls
  exact ⟨h.lineOpen_iff.trans not_or, fun next => (h.call next).2, hfilter.symm⟩

end Transcript

end Mailbox
