import Mailbox.Proofs.Assembly.LineText
set_option autoImplicit false

/-!
# Label names where they are read

Three places decide what a label is: `isLabelName`, the reading of the word in front of a mnemonic
and the reading of the word behind one.  Main statement: they agree on every text, also on one that
is no word at all.

Normative source: SPEC_FULL.md, section A7 (names of labels).
-/

namespace Mailbox

theorem Grammar.OperandForm.isLabelName {ws : List SourceWord} {o : Option Operand} {label : Label}
    (h : OperandForm ws o) (ho : o = some (.label label)) : Mailbox.isLabelName label.name := by
  subst ho
  cases h with
  | name hname => exact (isLabelName_iff _).2 hname

/-! ## Sources of one line -/

namespace SourceLine

/-- A source without newlines is one line. -/
theorem exists_all_eq_singleton {source : String} (h : '\n' ∉ source.toList) :
    ∃ number offset, all source = [⟨number, wordsOf (place offset source.toList)⟩] := by
  have hlines := forall₂_isOf_all (List.cons_ne_nil source []) (List.forall_mem_singleton.2 h)
  rw [String.intercalate_singleton] at hlines
  obtain ⟨line, _, ⟨number, offset, rfl⟩, hnone, hall⟩ := List.forall₂_cons_right_iff.1 hlines
  cases hnone
  exact ⟨number, offset, hall⟩

/-- Two words with a space between them are one line, and the words of this line. -/
theorem exists_all_eq_pair {v w : String} (hv : v.toList ≠ []) (hw : w.toList ≠ [])
    (hvc : ∀ c ∈ v.toList, isWordChar c) (hwc : ∀ c ∈ w.toList, isWordChar c) :
    ∃ number offset offset',
      all (v ++ " " ++ w) = [⟨number, [⟨v.toList, offset⟩, ⟨w.toList, offset'⟩]⟩] := by
  have htext : (v ++ " " ++ w).toList = v.toList ++ ' ' :: w.toList := by
    simp only [String.toList_append, List.append_assoc]
    rfl
  have hbreak : '\n' ∉ (v ++ " " ++ w).toList := htext ▸ newline_not_mem_pair hvc hwc
  obtain ⟨number, offset, hall⟩ := exists_all_eq_singleton hbreak
  rw [htext, wordsOf_place_pair hv hw hvc hwc] at hall
  exact ⟨number, offset, _, hall⟩

/-- The label that a statement refers to is a name. -/
theorem Reads.isLabelName_of_operand {line : SourceLine} {s : Statement} {label : Label}
    (h : line.Reads s) (ho : s.operand = some (.label label)) :
    Mailbox.isLabelName label.name := by
  obtain ⟨number, words⟩ := line
  cases h with
  | unlabelled _ hform => exact hform.isLabelName ho
  | labelled _ _ hform => exact hform.isLabelName ho

end SourceLine

namespace Statement

open SourceLine

variable {source w : String} {ss : List Statement}

/-! ## Labels that are read -/

/-- The labels that statements of a source refer to are names. -/
theorem isLabelName_of_operand (h : parse source = .ok ss) {s : Statement} (hs : s ∈ ss)
    {label : Label} (ho : s.operand = some (.label label)) : isLabelName label.name := by
  obtain ⟨line, _, hreads⟩ := exists_line_of_forall₂ ((parse_eq_ok_iff source ss).1 h) s hs
  exact hreads.isLabelName_of_operand ho

theorem parse_of_line {line : SourceLine} {s : Statement} (hall : all source = [line])
    (h : line.Reads s) : parse source = .ok [s] := by
  rw [parse_eq_ok_iff, hall, h.filled_cons]
  exact .cons h .nil

/-! ## Names are read as labels -/

/-- A name in front of a mnemonic is read as the label of the statement. -/
theorem exists_label_of_isLabelName (h : isLabelName w) : ∃ s label,
    parse (w ++ " DAT") = .ok [s] ∧ s.label = some label ∧ label.name = w := by
  have hname := isName_of_isLabelName h
  have hdat := Grammar.isMnemonic_name .dat
  obtain ⟨number, offset, offset', hall⟩ := exists_all_eq_pair hname.1.ne_nil hdat.1.ne_nil
    hname.1.isWordChar hdat.1.isWordChar
  rw [String.append_assoc] at hall
  exact ⟨_, _, parse_of_line hall (.labelled hname hdat .absent), rfl, String.ofList_toList⟩

/-- A name behind a mnemonic is read as the label it refers to. -/
theorem exists_operand_of_isLabelName (h : isLabelName w) : ∃ s label,
    parse ("DAT " ++ w) = .ok [s] ∧ s.operand = some (.label label) ∧ label.name = w := by
  have hname := isName_of_isLabelName h
  have hdat := Grammar.isMnemonic_name .dat
  obtain ⟨number, offset, offset', hall⟩ := exists_all_eq_pair hdat.1.ne_nil hname.1.ne_nil
    hdat.1.isWordChar hname.1.isWordChar
  exact ⟨_, _, parse_of_line hall (.unlabelled hdat (.name hname)), rfl, String.ofList_toList⟩

/-- A text may be used as a label exactly if it is read as one, in front of a mnemonic and behind
one. -/
theorem isLabelName_iff_parse (w : String) :
    (isLabelName w ↔ ∃ s label,
      parse (w ++ " DAT") = .ok [s] ∧ s.label = some label ∧ label.name = w) ∧
    (isLabelName w ↔ ∃ s label,
      parse ("DAT " ++ w) = .ok [s] ∧ s.operand = some (.label label) ∧ label.name = w) := by
  refine ⟨⟨exists_label_of_isLabelName, ?_⟩, ⟨exists_operand_of_isLabelName, ?_⟩⟩
  · rintro ⟨s, label, hparse, hlabel, rfl⟩
    exact isLabelName_of_mem hparse (List.mem_singleton_self s) hlabel
  · rintro ⟨s, label, hparse, hoperand, rfl⟩
    exact isLabelName_of_operand hparse (List.mem_singleton_self s) hoperand

end Statement

end Mailbox
