import Mailbox.Proofs.Assembly.Positions
set_option autoImplicit false

/-!
# What errors quote

Faults of unknown mnemonics, of operands and of labels carry a piece of text, and their messages
quote it.  Main statement: it is the text of the source at the span of the error, unless a literal
stands in the place of a label: that is quoted by the decimal text of its value, whatever zeros or
plus sign it is written with.

Normative source: SPEC_FULL.md, section A2 (the message of an error).
-/

namespace Mailbox

/-- The text that the message of a fault quotes. -/
def AssemblyFault.quote? : AssemblyFault → Option String
  | .unknownMnemonic name => some name
  | .malformedOperand text => some text
  | .invalidLabel text => some text
  | .duplicateLabel name => some name
  | .undefinedLabel name => some name
  | .unexpectedToken _ | .addressOverflow => none
  | .operandOutOfRange _ | .operandRequired _ | .operandForbidden _ => none

namespace AssemblyError

/-- An error finds a literal in the place of a label, and quotes the decimal text of its value. -/
structure FindsLiteral (e : AssemblyError) (source : String) (text : List Char) (value : Word) :
    Prop where
  fault_eq : e.fault = .invalidLabel value.decimal
  reads : e.span.Reads source text
  isLiteral : Grammar.IsLiteral text value

/-- An error quotes a literal in another form than the source has it. -/
def RewritesLiteral (e : AssemblyError) (source : String) : Prop :=
  ∃ text value, e.FindsLiteral source text value ∧ text ≠ value.decimal.toList

end AssemblyError

/-! ## Messages -/

/-- The words for a fault end with its quotation, between backticks. -/
theorem AssemblyFault.exists_text_eq {fault : AssemblyFault} {quote : String}
    (h : fault.quote? = some quote) : ∃ lead, fault.text = lead ++ "`" ++ quote ++ "`" := by
  cases fault with
  | unknownMnemonic name =>
    obtain rfl := Option.some.inj h
    exact ⟨"Unknown mnemonic ", rfl⟩
  | malformedOperand text =>
    obtain rfl := Option.some.inj h
    exact ⟨"Malformed operand ", rfl⟩
  | invalidLabel text =>
    obtain rfl := Option.some.inj h
    exact ⟨"Invalid label ", rfl⟩
  | duplicateLabel name =>
    obtain rfl := Option.some.inj h
    exact ⟨"Duplicate label ", rfl⟩
  | undefinedLabel name =>
    obtain rfl := Option.some.inj h
    exact ⟨"Undefined label ", rfl⟩
  | unexpectedToken _ | addressOverflow | operandOutOfRange _ | operandRequired _
  | operandForbidden _ => exact absurd h (by simp [quote?])

theorem AssemblyError.exists_message_eq {e : AssemblyError} {quote : String}
    (h : e.fault.quote? = some quote) : ∃ lead, e.message = lead ++ "`" ++ quote ++ "`" := by
  obtain ⟨lead, htext⟩ := AssemblyFault.exists_text_eq h
  refine ⟨"line " ++ toString e.line ++ ": " ++ lead, ?_⟩
  have hmessage : e.message = "line " ++ toString e.line ++ ": " ++ e.fault.text := rfl
  rw [hmessage, htext]
  simp only [String.append_assoc]

/-! ## Texts at a span -/

/-- A span has one text. -/
theorem Span.Reads.unique {span : Span} {source : String} {text text' : List Char}
    (h : span.Reads source text) (h' : span.Reads source text') : text = text' := by
  obtain ⟨before, after, hparts⟩ := h
  obtain ⟨before', after', hparts'⟩ := h'
  have hbefore : before = before' := by
    have hlength : byteLength before = byteLength before' := by
      rw [← hparts.offset_eq, ← hparts'.offset_eq]
    exact eq_of_byteLength_eq hparts.start_isPrefix hparts'.start_isPrefix hlength
  have hstop : before ++ text = before' ++ text' := by
    have hlength : byteLength (before ++ text) = byteLength (before' ++ text') := by
      rw [← hparts.stop_eq, ← hparts'.stop_eq]
    exact eq_of_byteLength_eq hparts.stop_isPrefix hparts'.stop_isPrefix hlength
  rw [hbefore] at hstop
  exact List.append_cancel_left hstop

/-! ## Faults of lines -/

namespace Grammar

variable {ws : List SourceWord} {w : SourceWord} {fault : AssemblyFault} {quote : String}

/-- What a word is quoted by is the word, unless it is a literal. -/
theorem Says.text_eq {cs : List Char} {content : Content} (h : Says cs content) :
    content.text = String.ofList cs ∨ ∃ value, IsLiteral cs value ∧ content.text = value.decimal := by
  cases h with
  | literal hl => exact Or.inr ⟨_, hl, rfl⟩
  | identifier _ => exact Or.inl rfl
  | malformed _ _ => exact Or.inl rfl

theorem OperandFault.quote_eq (h : OperandFault ws w fault) (hq : fault.quote? = some quote) :
    quote = w.name := by
  cases h with
  | malformed _ _ => exact (Option.some.inj hq).symm
  | extra _ _ => exact absurd hq (by simp [AssemblyFault.quote?])

/-- The fault of a line quotes the word that has it, or calls a literal no label. -/
theorem LineFault.quote_eq (h : LineFault ws w fault) (hq : fault.quote? = some quote) :
    quote = w.name ∨
      ∃ value, IsLiteral w.text value ∧ fault = .invalidLabel value.decimal := by
  cases h with
  | label _ _ _ hs =>
    obtain rfl := Option.some.inj hq
    rcases hs.text_eq with htext | ⟨value, hl, htext⟩
    · exact Or.inl htext
    · exact Or.inr ⟨value, hl, congrArg AssemblyFault.invalidLabel htext⟩
  | secondName _ _ => exact Or.inl (Option.some.inj hq).symm
  | first _ _ _ => exact Or.inl (Option.some.inj hq).symm
  | firstLiteral _ _ => exact absurd hq (by simp [AssemblyFault.quote?])
  | operand _ hf => exact Or.inl (hf.quote_eq hq)
  | labelledOperand _ _ hf => exact Or.inl (hf.quote_eq hq)

end Grammar

/-! ## Errors -/

variable {source quote : String} {e : AssemblyError}

/-- An error of reading quotes the word it points at, or finds a literal there. -/
theorem SourceLine.FirstReport.reads_quote (h : FirstReport (all source) e)
    (hq : e.fault.quote? = some quote) :
    e.span.Reads source quote.toList ∨ ∃ text value, e.FindsLiteral source text value := by
  obtain ⟨before, line, after, hall, _, _, w, fault, hfault, rfl⟩ := h
  have hline : line ∈ all source := by simp [hall]
  have hreads := (standsOn hline hfault.mem).reads
  rcases hfault.quote_eq hq with rfl | ⟨value, hl, hinvalid⟩
  · left
    rw [SourceWord.name, String.toList_ofList]
    exact hreads
  · exact Or.inr ⟨w.text, value, hinvalid, hreads, hl⟩

open Faults in
/-- An error of statements quotes the label it points at. -/
theorem Program.Rejected.reads_quote {ss : List Statement} (hss : ∀ s ∈ ss, s.IsExact source)
    (h : Program.Rejected ss e) (hq : e.fault.quote? = some quote) :
    e.span.Reads source quote.toList := by
  cases h with
  | misplaced h =>
    obtain ⟨n, hn, _⟩ := h
    cases hn with
    | overflow _ _ => exact absurd hq (by simp [AssemblyFault.quote?])
    | duplicate hs _ hl _ _ =>
      obtain rfl := Option.some.inj hq
      exact ((hss _ (List.mem_of_getElem? hs)).label _ hl).2
  | dangling _ h =>
    obtain ⟨n, ⟨s, hs, hn⟩, _⟩ := h
    obtain ⟨ho, _⟩ := hn
    obtain rfl := Option.some.inj hq
    obtain ⟨_, text, hreads, rfl⟩ := (hss _ (List.mem_of_getElem? hs)).operand _ ho
    exact hreads
  | unencodable _ _ h =>
    obtain ⟨n, ⟨s, _, hn⟩, _⟩ := h
    cases hn <;> exact absurd hq (by simp [AssemblyFault.quote?])

namespace Program

theorem reads_quote_or_findsLiteral (h : assemble source = .error e)
    (hq : e.fault.quote? = some quote) :
    e.span.Reads source quote.toList ∨ ∃ text value, e.FindsLiteral source text value := by
  cases (assemble_eq_error_iff source e).1 h with
  | unread _ hfirst => exact hfirst.reads_quote hq
  | rejected hparse hrejected =>
    exact Or.inl (hrejected.reads_quote (fun s hs => Statement.isExact_of_mem hparse hs) hq)

/-- Messages quote the source at the span of the error, except for a literal in the place of a label
that is not written as the decimal text of its value. -/
theorem assemble_quotes_source (h : assemble source = .error e)
    (hq : e.fault.quote? = some quote) :
    (∃ lead, e.message = lead ++ "`" ++ quote ++ "`") ∧
      (e.span.Reads source quote.toList ↔ ¬ e.RewritesLiteral source) := by
  have hdecimal : ∀ {text value}, e.FindsLiteral source text value → quote = value.decimal := by
    intro text value hfinds
    rw [hfinds.fault_eq] at hq
    exact (Option.some.inj hq).symm
  refine ⟨AssemblyError.exists_message_eq hq, ?_, ?_⟩
  · rintro hreads ⟨text, value, hfinds, hne⟩
    rw [hdecimal hfinds] at hreads
    exact hne (hfinds.reads.unique hreads)
  · intro hnot
    rcases reads_quote_or_findsLiteral h hq with hreads | ⟨text, value, hfinds⟩
    · exact hreads
    · by_cases hsame : text = value.decimal.toList
      · rw [hdecimal hfinds, ← hsame]
        exact hfinds.reads
      · exact absurd ⟨text, value, hfinds, hsame⟩ hnot

/-- A label used twice behind a comment with a letter of two bytes. -/
theorem assemble_quotes_source_duplicate :
    assemble "#é\na DAT\n a DAT" = .error ⟨3, ⟨11, 1⟩, .duplicateLabel "a"⟩ ∧
      Span.Reads ⟨11, 1⟩ "#é\na DAT\n a DAT" "a".toList := by
  have herror : assemble "#é\na DAT\n a DAT" = .error ⟨3, ⟨11, 1⟩, .duplicateLabel "a"⟩ := by
    decide +kernel
  refine ⟨herror, (assemble_quotes_source herror rfl).2.2 ?_⟩
  rintro ⟨_, _, hfinds, _⟩
  exact absurd hfinds.fault_eq (by simp)

/-- A literal with zeros in front of it is not quoted as it is written. -/
theorem assemble_misquotes_literal :
    assemble "007 HLT" = .error ⟨1, ⟨0, 3⟩, .invalidLabel "7"⟩ ∧
      Span.Reads ⟨0, 3⟩ "007 HLT" "007".toList ∧ ¬ Span.Reads ⟨0, 3⟩ "007 HLT" "7".toList := by
  have hreads : Span.Reads ⟨0, 3⟩ "007 HLT" "007".toList :=
    ⟨[], " HLT".toList, by decide +kernel, rfl, rfl⟩
  exact ⟨by decide +kernel, hreads, fun h => absurd (hreads.unique h) (by decide)⟩

end Program

end Mailbox
