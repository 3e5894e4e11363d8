import Mailbox.Proofs.Assembly.Grammar
import Mathlib.Data.List.Forall2
set_option autoImplicit false

/-!
# Reading a source

Statements are read from the lines of a source in order, and the first line that is not well formed
ends the reading.  Main statement: reading succeeds exactly if all lines are well formed, and gives
one statement for each line with words; otherwise it gives what is wrong with the first line that
is not well formed.

Normative source: SPEC_FULL.md, section 4.1.
-/

namespace Mailbox

namespace SourceLine

/-- The lines with words. -/
def filled (lines : List SourceLine) : List SourceLine :=
  lines.filter fun line => !line.words.isEmpty

/-- What is wrong with the first line that is not well formed. -/
def FirstReport (lines : List SourceLine) (e : AssemblyError) : Prop :=
  ∃ before line after, lines = before ++ line :: after ∧ (∀ l ∈ before, l.WellFormed) ∧
    ¬ line.WellFormed ∧ line.Reports e

theorem hasText_of_mem_all {source : String} {line : SourceLine} (h : line ∈ all source) :
    line.HasText :=
  fun _ hw => text_ne_nil h hw

/-- A line stands for one statement at most. -/
theorem reads_rightUnique : Relator.RightUnique Reads := by
  rintro ⟨number, words⟩ s t hs ht
  cases words with
  | nil => cases hs
  | cons first rest =>
    have hok := Grammar.ofTokens_of_form hs
    rw [Grammar.ofTokens_of_form ht] at hok
    exact (Except.ok.inj hok).symm

theorem exists_reads_of_forall₂ {lines : List SourceLine} {ss : List Statement}
    (h : List.Forall₂ Reads lines ss) : ∀ line ∈ lines, ∃ s, line.Reads s := by
  induction h with
  | nil => simp
  | cons hs _ ih =>
    intro line hl
    rcases List.mem_cons.1 hl with rfl | hl
    · exact ⟨_, hs⟩
    · exact ih line hl

theorem exists_line_of_forall₂ {lines : List SourceLine} {ss : List Statement}
    (h : List.Forall₂ Reads lines ss) : ∀ s ∈ ss, ∃ line ∈ lines, line.Reads s := by
  induction h with
  | nil => simp
  | @cons line t _ _ ht _ ih =>
    intro s hs
    rcases List.mem_cons.1 hs with rfl | hs
    · exact ⟨line, List.mem_cons_self, ht⟩
    · obtain ⟨l, hl, hreads⟩ := ih s hs
      exact ⟨l, List.mem_cons_of_mem line hl, hreads⟩

theorem Reads.isLabelName {line : SourceLine} {s : Statement} {label : Label} (h : line.Reads s)
    (hl : s.label = some label) : isLabelName label.name := by
  obtain ⟨number, words⟩ := line
  cases h with
  | unlabelled _ _ => exact absurd hl (by simp)
  | labelled hname _ _ =>
    obtain rfl := Option.some.inj hl
    exact (Grammar.isLabelName_iff _).2 hname

/-- A line that stands for a statement has words. -/
theorem Reads.filled_cons {line : SourceLine} {s : Statement} (h : line.Reads s)
    (lines : List SourceLine) : filled (line :: lines) = line :: filled lines := by
  have hne : line.words ≠ [] := by
    obtain ⟨number, words⟩ := line
    cases h <;> simp
  exact List.filter_cons_of_pos (by simpa using hne)

/-- Lines are well formed if those with words have statements. -/
theorem wellFormed_of_forall₂ {lines : List SourceLine} {ss : List Statement}
    (h : List.Forall₂ Reads (filled lines) ss) : ∀ line ∈ lines, line.WellFormed := by
  intro line hl
  by_cases hw : line.words = []
  · exact Or.inl hw
  · exact Or.inr (exists_reads_of_forall₂ h line (List.mem_filter.2 ⟨hl, by simpa using hw⟩))

/-- A line that is not well formed has a fault. -/
theorem exists_reports {line : SourceLine} (h : ¬ line.WellFormed) : ∃ e, line.Reports e := by
  have hne : line.words ≠ [] := fun hw => h (Or.inl hw)
  rcases Grammar.line_total line.number hne with ⟨s, hs⟩ | ⟨w, fault, hf⟩
  · exact absurd (Or.inr ⟨s, hs⟩) h
  · exact ⟨_, w, fault, hf, rfl⟩

/-- Lines are well formed, or one of them is the first that is not. -/
theorem firstReport_total (lines : List SourceLine) :
    (∀ line ∈ lines, line.WellFormed) ∨ ∃ e, FirstReport lines e := by
  induction lines with
  | nil => exact Or.inl (by simp)
  | cons line lines ih =>
    by_cases hw : line.WellFormed
    · rcases ih with hall | ⟨e, before, l, after, rfl, hb, hl, he⟩
      · refine Or.inl fun l hl => ?_
        rcases List.mem_cons.1 hl with rfl | hl
        · exact hw
        · exact hall l hl
      · refine Or.inr ⟨e, line :: before, l, after, rfl, fun m hm => ?_, hl, he⟩
        rcases List.mem_cons.1 hm with rfl | hm
        · exact hw
        · exact hb m hm
    · obtain ⟨e, he⟩ := exists_reports hw
      exact Or.inr ⟨e, [], line, lines, rfl, by simp, hw, he⟩

/-! ## Reading lines -/

theorem ofLines_cons_of_nil {line : SourceLine} (h : line.words = []) (lines : List SourceLine) :
    Statement.ofLines ((line :: lines).map tokens) = Statement.ofLines (lines.map tokens) := by
  have ht : line.tokens = [] := by simp [tokens, h]
  rw [List.map_cons, ht]
  rfl

theorem ofLines_cons_of_reads {line : SourceLine} {s : Statement} (h : line.Reads s)
    (lines : List SourceLine) :
    Statement.ofLines ((line :: lines).map tokens) =
      (Statement.ofLines (lines.map tokens)).map (s :: ·) := by
  obtain ⟨number, words⟩ := line
  cases words with
  | nil => cases h
  | cons first rest =>
    have hok := Grammar.ofTokens_of_form h
    simp only [List.map_cons, tokens, Statement.ofLines, hok]
    cases Statement.ofLines (lines.map tokens) with
    | error e => rfl
    | ok ss => rfl

theorem ofLines_cons_of_reports {line : SourceLine} {e : AssemblyError} (ht : line.HasText)
    (h : line.Reports e) (lines : List SourceLine) :
    Statement.ofLines ((line :: lines).map tokens) = .error e := by
  obtain ⟨w, fault, hf, rfl⟩ := h
  obtain ⟨number, words⟩ := line
  cases words with
  | nil => cases hf
  | cons first rest =>
    have herror := Grammar.ofTokens_of_fault (n := number) ht hf
    simp only [List.map_cons, tokens, Statement.ofLines, herror]
    rfl

theorem ofLines_of_wellFormed {lines : List SourceLine} (h : ∀ line ∈ lines, line.WellFormed) :
    ∃ ss, Statement.ofLines (lines.map tokens) = .ok ss ∧
      List.Forall₂ Reads (filled lines) ss := by
  induction lines with
  | nil => exact ⟨[], rfl, .nil⟩
  | cons line lines ih =>
    obtain ⟨ss, hss, hreads⟩ := ih fun l hl => h l (List.mem_cons_of_mem line hl)
    rcases h line List.mem_cons_self with hw | ⟨s, hs⟩
    · refine ⟨ss, by rw [ofLines_cons_of_nil hw, hss], ?_⟩
      rw [filled, List.filter_cons_of_neg (by simp [hw])]
      exact hreads
    · refine ⟨s :: ss, by rw [ofLines_cons_of_reads hs, hss]; rfl, ?_⟩
      rw [hs.filled_cons]
      exact .cons hs hreads

theorem ofLines_of_firstReport {lines : List SourceLine} {e : AssemblyError}
    (ht : ∀ line ∈ lines, line.HasText) (h : FirstReport lines e) :
    Statement.ofLines (lines.map tokens) = .error e := by
  obtain ⟨before, line, after, rfl, hb, _, he⟩ := h
  induction before with
  | nil => exact ofLines_cons_of_reports (ht line List.mem_cons_self) he after
  | cons l before ih =>
    have hrest := ih (fun m hm => ht m (List.mem_cons_of_mem l hm))
      fun m hm => hb m (List.mem_cons_of_mem l hm)
    rw [List.cons_append]
    rcases hb l List.mem_cons_self with hw | ⟨s, hs⟩
    · rw [ofLines_cons_of_nil hw, hrest]
    · rw [ofLines_cons_of_reads hs, hrest]
      rfl

end SourceLine

namespace Statement

open SourceLine

theorem parse_eq (source : String) :
    parse source = ofLines ((SourceLine.all source).map tokens) := by
  unfold parse
  rw [lines_eq]

/-- Well-formed sources are read. -/
theorem parse_of_wellFormed {source : String}
    (h : ∀ line ∈ SourceLine.all source, line.WellFormed) :
    ∃ ss, parse source = .ok ss ∧ List.Forall₂ Reads (filled (SourceLine.all source)) ss := by
  rw [parse_eq]
  exact ofLines_of_wellFormed h

/-- Reading fails with the report of the first line that is not well formed. -/
theorem parse_eq_error_iff (source : String) (e : AssemblyError) :
    parse source = .error e ↔ FirstReport (SourceLine.all source) e := by
  have ht : ∀ line ∈ SourceLine.all source, line.HasText := fun _ hl => hasText_of_mem_all hl
  constructor
  · intro h
    rcases firstReport_total (SourceLine.all source) with hall | ⟨f, hf⟩
    · obtain ⟨ss, hss, _⟩ := parse_of_wellFormed hall
      rw [h] at hss
      exact absurd hss (by simp)
    · have hfirst := ofLines_of_firstReport ht hf
      rw [← parse_eq, h] at hfirst
      obtain rfl := Except.error.inj hfirst
      exact hf
  · intro h
    rw [parse_eq]
    exact ofLines_of_firstReport ht h

/-- Reading succeeds exactly on well-formed sources. -/
theorem exists_parse_eq_ok_iff (source : String) :
    (∃ ss, parse source = .ok ss) ↔ ∀ line ∈ SourceLine.all source, line.WellFormed := by
  constructor
  · intro h
    obtain ⟨ss, hss⟩ := h
    rcases firstReport_total (SourceLine.all source) with hall | ⟨e, he⟩
    · exact hall
    · rw [(parse_eq_error_iff source e).2 he] at hss
      exact absurd hss (by simp)
  · intro h
    obtain ⟨ss, hss, _⟩ := parse_of_wellFormed h
    exact ⟨ss, hss⟩

/-- The statements that are read are those of the lines with words. -/
theorem parse_eq_ok_iff (source : String) (ss : List Statement) :
    parse source = .ok ss ↔ List.Forall₂ Reads (filled (SourceLine.all source)) ss := by
  constructor
  · intro h
    obtain ⟨ts, hts, hreads⟩ := parse_of_wellFormed ((exists_parse_eq_ok_iff source).1 ⟨ss, h⟩)
    rw [h] at hts
    obtain rfl := Except.ok.inj hts
    exact hreads
  · intro h
    obtain ⟨ts, hts, hreads⟩ := parse_of_wellFormed (wellFormed_of_forall₂ h)
    rw [hts, List.right_unique_forall₂' reads_rightUnique hreads h]

/-- The labels that statements of a source carry are names. -/
theorem isLabelName_of_mem {source : String} {ss : List Statement} (h : parse source = .ok ss)
    {s : Statement} (hs : s ∈ ss) {label : Label} (hl : s.label = some label) :
    isLabelName label.name := by
  obtain ⟨line, _, hreads⟩ := exists_line_of_forall₂ ((parse_eq_ok_iff source ss).1 h) s hs
  exact hreads.isLabelName hl

/-- Reading follows the grammar of lines. -/
theorem parse_follows_grammar (source : String) :
    ((∃ ss, parse source = .ok ss) ↔ ∀ line ∈ SourceLine.all source, line.WellFormed) ∧
      (∀ ss, parse source = .ok ss ↔
        List.Forall₂ Reads (filled (SourceLine.all source)) ss) ∧
      ∀ e, parse source = .error e ↔ FirstReport (SourceLine.all source) e :=
  ⟨exists_parse_eq_ok_iff source, parse_eq_ok_iff source, parse_eq_error_iff source⟩

end Statement

end Mailbox
