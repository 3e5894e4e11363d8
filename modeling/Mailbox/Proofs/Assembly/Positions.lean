import Mailbox.Proofs.Assembly.Assembling
import Mailbox.Proofs.Assembly.WordPlace
set_option autoImplicit false

/-!
# Positions

Where the statements of a source and the errors of its assembly stand.  Main statement: their spans
are exact, the source has at them what they are said to hold, and they go through the source in
order.

Normative source: SPEC_FULL.md, section A2 (an error has a line and a span).
-/

namespace Mailbox

/-- A text spells an operand. -/
def Operand.IsSpelled (text : List Char) : Operand → Prop
  | .literal value _ => Grammar.IsLiteral text value
  | .label l => text = l.name.toList

namespace Statement

/-- Where the first word of a statement stands. -/
def firstSpan (s : Statement) : Span := (s.label.map Label.span).getD s.mnemonicSpan

/-- Where the last word of a statement stands. -/
def lastSpan (s : Statement) : Span := (s.operand.map Operand.span).getD s.mnemonicSpan

/-- The spans of a statement are exact on its line, and the source has at them what the statement
says. -/
structure IsExact (s : Statement) (source : String) : Prop where
  label : ∀ l ∈ s.label, l.span.IsExact source s.line ∧ l.span.Reads source l.name.toList
  mnemonic : s.mnemonicSpan.IsExact source s.line ∧
    ∃ text, s.mnemonicSpan.Reads source text ∧ Grammar.IsMnemonic text s.mnemonic
  operand : ∀ o ∈ s.operand, o.span.IsExact source s.line ∧
    ∃ text, o.span.Reads source text ∧ o.IsSpelled text
  span : s.span.IsExact source s.line
  start : s.span.offset = s.firstSpan.offset
  stop : s.span.stop = s.lastSpan.stop

/-- Both a line and a span of a statement come before those of another. -/
def Precedes (s t : Statement) : Prop :=
  s.line < t.line ∧ s.span.stop < t.span.offset

end Statement

/-! ## Words of statements and faults -/

namespace Grammar

variable {ws : List SourceWord} {x : SourceWord} {fault : AssemblyFault}

/-- An operand is one of the words it is read from. -/
theorem OperandForm.exists_word {o : Operand} (h : OperandForm ws (some o)) :
    ∃ w ∈ ws, w.span = o.span ∧ o.IsSpelled w.text := by
  cases h with
  | literal hl => exact ⟨_, List.mem_singleton_self _, rfl, hl⟩
  | name _ => exact ⟨_, List.mem_singleton_self _, rfl, (String.toList_ofList ..).symm⟩

/-- The operand of a line is its last word; without one, the mnemonic is. -/
theorem OperandForm.getLast_span {o : Option Operand} (h : OperandForm ws o) (w : SourceWord) :
    ((w :: ws).getLast (List.cons_ne_nil _ _)).span = (o.map Operand.span).getD w.span := by
  cases h <;> rfl

theorem OperandFault.mem (h : OperandFault ws x fault) : x ∈ ws := by
  cases h <;> simp

/-- A fault is one of a word of the line. -/
theorem LineFault.mem (h : LineFault ws x fault) : x ∈ ws := by
  cases h with
  | label => simp
  | secondName => simp
  | firstLiteral => simp
  | first => simp
  | operand _ hf => exact List.mem_cons_of_mem _ hf.mem
  | labelledOperand _ _ hf => exact List.mem_cons_of_mem _ (List.mem_cons_of_mem _ hf.mem)

end Grammar

/-! ## Statements -/

namespace SourceLine

open Statement

variable {source : String} {line : SourceLine} {s : Statement}

theorem Reads.line_eq (h : line.Reads s) : s.line = line.number := by
  cases line
  cases h <;> rfl

/-- A statement points into the line it is read from. -/
theorem Reads.isExact (hl : line ∈ all source) (h : line.Reads s) : s.IsExact source := by
  obtain ⟨number, words⟩ := line
  have hword : ∀ w ∈ words, w.span.IsExact source number ∧ w.span.Reads source w.text :=
    fun w hw => ⟨(standsOn hl hw).isExact, (standsOn hl hw).reads⟩
  have hoperand : ∀ ws, (∀ w ∈ ws, w ∈ words) → ∀ o, Grammar.OperandForm ws (some o) →
      o.span.IsExact source number ∧ ∃ text, o.span.Reads source text ∧ o.IsSpelled text := by
    intro ws hws o ho
    obtain ⟨w, hw, hspan, hspelled⟩ := ho.exists_word
    rw [← hspan]
    exact ⟨(hword w (hws w hw)).1, w.text, (hword w (hws w hw)).2, hspelled⟩
  cases h with
  | @unlabelled w ws m o hm ho =>
    obtain ⟨hcover, hstart, hstop⟩ := isExact_cover hl
    obtain ⟨hexact, hreads⟩ := hword w (by simp)
    refine ⟨by simp, ⟨hexact, w.text, hreads, hm⟩, ?_, hcover, hstart, ?_⟩
    · rintro o rfl
      exact hoperand ws (fun v hv => List.mem_cons_of_mem w hv) o ho
    · rw [hstop, ho.getLast_span]
      rfl
  | @labelled l w ws m o hn hm ho =>
    obtain ⟨hcover, hstart, hstop⟩ := isExact_cover hl
    obtain ⟨hexact, hreads⟩ := hword w (by simp)
    refine ⟨?_, ⟨hexact, w.text, hreads, hm⟩, ?_, hcover, hstart, ?_⟩
    · intro label hlabel
      obtain rfl : (⟨l.name, l.span⟩ : Label) = label := Option.some.inj hlabel
      obtain ⟨hlabel, htext⟩ := hword l (by simp)
      refine ⟨hlabel, ?_⟩
      rw [SourceWord.name, String.toList_ofList]
      exact htext
    · rintro o rfl
      exact hoperand ws (fun v hv => List.mem_cons_of_mem l (List.mem_cons_of_mem w hv)) o ho
    · rw [hstop, List.getLast_cons (List.cons_ne_nil w ws), ho.getLast_span]
      rfl

/-- Lines tell their numbers to the statements read from them. -/
theorem map_line_of_forall₂ {lines : List SourceLine} {ss : List Statement}
    (h : List.Forall₂ Reads lines ss) : ss.map Statement.line = lines.map number := by
  induction h with
  | nil => rfl
  | cons hs _ ih => rw [List.map_cons, List.map_cons, hs.line_eq, ih]

end SourceLine

namespace Statement

open SourceLine

variable {source : String} {ss : List Statement}

theorem isExact_of_mem (h : parse source = .ok ss) {s : Statement} (hs : s ∈ ss) :
    s.IsExact source := by
  obtain ⟨line, hline, hreads⟩ := exists_line_of_forall₂ ((parse_eq_ok_iff source ss).1 h) s hs
  exact hreads.isExact (List.mem_of_mem_filter hline)

theorem pairwise_precedes (h : parse source = .ok ss) : ss.Pairwise Precedes := by
  have hlines : (ss.map Statement.line).Pairwise (· < ·) := by
    rw [map_line_of_forall₂ ((parse_eq_ok_iff source ss).1 h), List.pairwise_map]
    exact (pairwise_number source).filter _
  refine (List.pairwise_map.1 hlines).imp_of_mem fun hs ht hlt => ⟨hlt, ?_⟩
  exact (isExact_of_mem h hs).span.stop_lt (isExact_of_mem h ht).span hlt

end Statement

/-! ## Errors -/

open Faults in
/-- A fault of statements points at a span of the statement that has it. -/
theorem Program.Rejected.isExact {source : String} {ss : List Statement} {e : AssemblyError}
    (hss : ∀ s ∈ ss, s.IsExact source) (h : Program.Rejected ss e) :
    e.span.IsExact source e.line := by
  have hget : ∀ {n : Nat} {s : Statement}, ss[n]? = some s → s.IsExact source :=
    fun hs => hss _ (List.mem_of_getElem? hs)
  cases h with
  | misplaced h =>
    obtain ⟨n, hn, _⟩ := h
    cases hn with
    | overflow hs _ => exact (hget hs).span
    | duplicate hs _ hl _ _ => exact ((hget hs).label _ hl).1
  | dangling _ h =>
    obtain ⟨n, ⟨s, hs, hn⟩, _⟩ := h
    obtain ⟨ho, _⟩ := hn
    exact ((hget hs).operand _ ho).1
  | unencodable _ _ h =>
    obtain ⟨n, ⟨s, hs, hn⟩, _⟩ := h
    cases hn with
    | required _ _ => exact (hget hs).mnemonic.1
    | forbidden _ ho => exact ((hget hs).operand _ ho).1
    | outOfRange _ ho _ => exact ((hget hs).operand _ ho).1

/-- A fault of a line points at one of its words. -/
theorem SourceLine.FirstReport.isExact {source : String} {e : AssemblyError}
    (h : SourceLine.FirstReport (SourceLine.all source) e) : e.span.IsExact source e.line := by
  obtain ⟨before, line, after, hall, _, _, w, fault, hfault, rfl⟩ := h
  have hline : line ∈ SourceLine.all source := by simp [hall]
  exact (SourceLine.standsOn hline hfault.mem).isExact

namespace Program

theorem isExact_of_assemble_eq_error {source : String} {e : AssemblyError}
    (h : assemble source = .error e) : e.span.IsExact source e.line := by
  cases (assemble_eq_error_iff source e).1 h with
  | unread _ hfirst => exact hfirst.isExact
  | rejected hparse hrejected =>
    exact hrejected.isExact fun s hs => Statement.isExact_of_mem hparse hs

/-- Statements and errors tell exactly where in the source they come from. -/
theorem positions_exact (source : String) :
    (∀ ss, Statement.parse source = .ok ss →
      (∀ s ∈ ss, s.IsExact source) ∧ ss.Pairwise Statement.Precedes) ∧
    ∀ e, assemble source = .error e → e.span.IsExact source e.line :=
  ⟨fun _ hparse => ⟨fun _ hs => Statement.isExact_of_mem hparse hs,
    Statement.pairwise_precedes hparse⟩, fun _ he => isExact_of_assemble_eq_error he⟩

/-- Two statements behind a comment with a letter of two bytes, the first with an operand that it
cannot have. -/
theorem positions_exact_behind_comment :
    (∃ ss, Statement.parse "#é\r\ntop OUT 5;é\n bra top" = .ok ss ∧ ss.length = 2 ∧
      (∀ s ∈ ss, s.IsExact "#é\r\ntop OUT 5;é\n bra top") ∧ ss.Pairwise Statement.Precedes) ∧
    assemble "#é\r\ntop OUT 5;é\n bra top" = .error ⟨2, ⟨13, 1⟩, .operandForbidden .out⟩ ∧
    Span.IsExact ⟨13, 1⟩ "#é\r\ntop OUT 5;é\n bra top" 2 := by
  have hparse : Statement.parse "#é\r\ntop OUT 5;é\n bra top" =
      .ok [⟨some ⟨"top", ⟨5, 3⟩⟩, .out, ⟨9, 3⟩, some (.literal 5 ⟨13, 1⟩), 2, ⟨5, 9⟩⟩,
        ⟨none, .bra, ⟨19, 3⟩, some (.label ⟨"top", ⟨23, 3⟩⟩), 3, ⟨19, 7⟩⟩] := by
    decide +kernel
  have herror : assemble "#é\r\ntop OUT 5;é\n bra top" =
      .error ⟨2, ⟨13, 1⟩, .operandForbidden .out⟩ := by
    decide +kernel
  obtain ⟨hstatements, herrors⟩ := positions_exact "#é\r\ntop OUT 5;é\n bra top"
  exact ⟨⟨_, hparse, rfl, hstatements _ hparse⟩, herror, herrors _ herror⟩

end Program

end Mailbox
