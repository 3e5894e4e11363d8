import Mailbox.Proofs.Session.Runs
set_option autoImplicit false

/-!
# Decoration

Banners and echoes are decoration: a minimal session leaves them out.  Main statement: a minimal
session and a decorated one over the same program and values go the same way, run by run, and what
the minimal one writes is what the decorated one writes with characters left out.

Normative source: SPEC_FULL.md, section A3 (`--minimal`).
-/

namespace Mailbox

namespace Transcript

/-- The text with the line ended that characters have left open. -/
def onNewLine (t : Transcript) : List Char :=
  t.text.toList ++ if t.lineOpen then ['\n'] else []

theorem toList_line (t : Transcript) (s : String) :
    (t.line s).text.toList = t.onNewLine ++ (s.toList ++ ['\n']) := by
  unfold line onNewLine
  cases t.lineOpen <;> simp

theorem onNewLine_line (t : Transcript) (s : String) :
    (t.line s).onNewLine = t.onNewLine ++ (s.toList ++ ['\n']) := by
  rw [← toList_line]
  exact List.append_nil _

/-- A minimal transcript says what another one says, with characters left out.  The other one may
have ended the line that is still open here, so the texts are compared with the line ended too. -/
structure Undecorates (p d : Transcript) : Prop where
  isMinimal : p.minimal
  text : p.text.toList.Sublist d.text.toList
  onNewLine : p.onNewLine.Sublist d.onNewLine

namespace Undecorates

variable {p d : Transcript}

theorem line (h : p.Undecorates d) (s : String) : (p.line s).Undecorates (d.line s) where
  isMinimal := h.isMinimal
  text := by
    rw [toList_line, toList_line]
    exact h.onNewLine.append_right _
  onNewLine := by
    rw [onNewLine_line, onNewLine_line]
    exact h.onNewLine.append_right _

/-- A line that only the decorated transcript has. -/
theorem line_right (h : p.Undecorates d) (s : String) : p.Undecorates (d.line s) where
  isMinimal := h.isMinimal
  text := by
    rw [toList_line]
    exact (h.text.trans (List.sublist_append_left _ _)).trans (List.sublist_append_left _ _)
  onNewLine := by
    rw [onNewLine_line]
    exact h.onNewLine.trans (List.sublist_append_left _ _)

/-- A character goes into both transcripts, and opens or ends the line in both. -/
theorem char (h : p.Undecorates d) (c : Char) :
    (p.write (.char c)).Undecorates (d.write (.char c)) := by
  have htext : (p.text.push c).toList.Sublist (d.text.push c).toList := by
    simpa using h.text
  exact ⟨h.isMinimal, htext, htext.append_right _⟩

theorem write (h : p.Undecorates d) (item : Item) :
    (p.write item).Undecorates (d.write item) := by
  cases item with
  | number value => exact h.line _
  | char c => exact h.char c
  | echo value =>
    simp only [Transcript.write, h.isMinimal, if_true]
    split
    · exact h
    · exact h.line_right _
  | banner words tint =>
    simp only [Transcript.write, h.isMinimal, if_true]
    split
    · exact h
    · exact h.line_right _

theorem writeAll (h : p.Undecorates d) (items : List Item) :
    (p.writeAll items).Undecorates (d.writeAll items) := by
  induction items generalizing p d with
  | nil => exact h
  | cons item items ih => exact ih (h.write item)

end Undecorates

theorem blank_undecorates (colored : Bool) : (blank true colored).Undecorates (blank false colored) :=
  ⟨rfl, List.Sublist.refl _, List.Sublist.refl _⟩

end Transcript

namespace Session

/-- A minimal session that is at one point with another, and has written the same but for
decoration. -/
structure Undecorates (p d : Session) : Prop where
  eq_withTranscript : p = d.withTranscript p.transcript
  transcript : p.transcript.Undecorates d.transcript

variable {p d : Session}

/-- What can be told of a session without its transcript is the same for both. -/
theorem Undecorates.eq_of {α : Type} (h : p.Undecorates d) (f : Session → α)
    (hf : ∀ t, f (d.withTranscript t) = f d) : f p = f d := by
  rw [h.eq_withTranscript]
  exact hf _

theorem Undecorates.pass (h : p.Undecorates d) :
    p.pass.1.Undecorates d.pass.1 ∧ p.pass.2 = d.pass.2 := by
  obtain ⟨items, hitems⟩ := pass_withTranscript d
  have hp : p.pass = (d.pass.1.withTranscript (p.transcript.writeAll items), d.pass.2) := by
    rw [← hitems, ← h.eq_withTranscript]
  have hd : d.pass.1.transcript = d.transcript.writeAll items :=
    congrArg (fun r => r.1.transcript) (hitems d.transcript)
  rw [hp]
  refine ⟨⟨rfl, ?_⟩, rfl⟩
  rw [hd]
  exact h.transcript.writeAll items

theorem start_undecorates (image : Image) (input : Input) (options : SessionOptions) :
    (start image input { options with minimal := true }).Undecorates
      (start image input { options with minimal := false }) :=
  ⟨rfl, Transcript.blank_undecorates options.colored⟩

/-- A minimal session goes the same way as a decorated one.  After any number of runs their machines,
counts of steps, values that wait and traces are equal, the next run has the same outcome, and the
text of the minimal session is that of the decorated one with characters left out. -/
theorem afterRuns_minimal (image : Image) (input : Input) (options : SessionOptions) (runs : Nat) :
    let minimal := (start image input { options with minimal := true }).afterRuns runs
    let decorated := (start image input { options with minimal := false }).afterRuns runs
    minimal.run.2 = decorated.run.2 ∧ minimal.machine = decorated.machine ∧
      minimal.steps = decorated.steps ∧ minimal.input = decorated.input ∧
      minimal.trace = decorated.trace ∧
      minimal.transcript.text.toList.Sublist decorated.transcript.text.toList := by
  intro minimal decorated
  obtain ⟨hsame, houtcome⟩ : minimal.Undecorates decorated ∧ minimal.run.2 = decorated.run.2 :=
    afterRuns_alike (fun a b hab => hab.eq_of steps fun _ => rfl) (fun a b hab => hab.pass)
      (start_undecorates image input options) runs
  exact ⟨houtcome, hsame.eq_of machine fun _ => rfl, hsame.eq_of steps fun _ => rfl,
    hsame.eq_of Session.input fun _ => rfl, hsame.eq_of trace fun _ => rfl, hsame.transcript.text⟩

end Session

end Mailbox
