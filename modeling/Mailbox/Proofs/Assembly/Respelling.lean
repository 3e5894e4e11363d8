import Mailbox.Proofs.Assembly.Assembling
import Mailbox.Proofs.Assembly.Translation
import Mailbox.Proofs.Assembly.WordLists
set_option autoImplicit false

/-!
# Other spellings

A program can be written down in many ways: the letters of a mnemonic may be of any case, some
operations have two names, and a number may have a plus sign and zeros in front.  Main statement:
if a source assembles, then another one that has the same words but for this, line by line,
assembles to the same program, and so does one that is laid out in another way.

Normative source: SPEC_FULL.md, section 4.1 (mnemonics in any case).
-/

namespace Mailbox

namespace Grammar

/-- Words for the same operation: they are the same but for the case of their letters, or they are
two names of the operation. -/
inductive SameOperation (w v : List Char) : Prop
  | letters (h : w.map Char.toUpper = v.map Char.toUpper)
  | names {m k : Mnemonic} (hw : IsMnemonic w m) (hv : IsMnemonic v k)
      (h : m.canonical = k.canonical)

/-- Words behind a mnemonic that are the same, but for the spelling of a number in front. -/
inductive SameOperands : List (List Char) → List (List Char) → Prop
  | same (ws : List (List Char)) : SameOperands ws ws
  | literal {w v : List Char} {value : Word} (hw : IsLiteral w value) (hv : IsLiteral v value)
      (ws : List (List Char)) : SameOperands (w :: ws) (v :: ws)

/-- The words of a line in other spelling.  The word in the place of the mnemonic is the first one,
or the second one if the first one is no mnemonic. -/
inductive Respelled : List (List Char) → List (List Char) → Prop
  | unlabelled {w v : List Char} {ws vs : List (List Char)} {m : Mnemonic} (hm : IsMnemonic w m)
      (hoperation : SameOperation w v) (hoperands : SameOperands ws vs) :
      Respelled (w :: ws) (v :: vs)
  | labelled {l w v : List Char} {ws vs : List (List Char)} (hl : ∀ m, ¬ IsMnemonic l m)
      (hoperation : SameOperation w v) (hoperands : SameOperands ws vs) :
      Respelled (l :: w :: ws) (l :: v :: vs)

end Grammar

/-- One name for each operation, and no places. -/
def Translation.bare : Translation where
  name := .refl String
  line _ := 0
  span _ := ⟨0, 0⟩
  mnemonic := Mnemonic.canonical
  arity_mnemonic m := by cases m <;> rfl
  base?_mnemonic m := by cases m <;> rfl

/-- Statements are the same, but for places and for the name of the operation, if their parts
are. -/
theorem Statement.translate_bare {s t : Statement}
    (hlabel : s.label.map (Label.translate .bare) = t.label.map (Label.translate .bare))
    (hmnemonic : s.mnemonic.canonical = t.mnemonic.canonical)
    (hoperand : s.operand.map (Operand.translate .bare) = t.operand.map (Operand.translate .bare)) :
    s.translate .bare = t.translate .bare := by
  unfold translate
  rw [hlabel, hoperand]
  simp only [Translation.bare, hmnemonic]

namespace Grammar

/-! ## Other spellings stand for the same statements -/

theorem SameOperation.exists_isMnemonic {w v : List Char} {m : Mnemonic} (h : SameOperation w v)
    (hw : IsMnemonic w m) : ∃ k, IsMnemonic v k ∧ m.canonical = k.canonical := by
  cases h with
  | letters h => exact ⟨m, isMnemonic_of_toUpper (h.symm.trans hw.2), rfl⟩
  | @names other k hother hv h =>
    obtain rfl := name_injective (hw.2.symm.trans hother.2)
    exact ⟨k, hv, h⟩

/-- A literal has one value. -/
theorem IsLiteral.eq_of {cs : List Char} {value other : Word} (h : IsLiteral cs value)
    (hother : IsLiteral cs other) : value = other := by
  have hread := (readWord_eq_ok_iff_isLiteral cs value).2 h
  rw [(readWord_eq_ok_iff_isLiteral cs other).2 hother] at hread
  exact (Except.ok.inj hread).symm

theorem SameOperands.of_singleton {w : List Char} {vs : List (List Char)}
    (h : SameOperands [w] vs) :
    ∃ v, vs = [v] ∧ (v = w ∨ ∃ value, IsLiteral w value ∧ IsLiteral v value) := by
  cases h with
  | same => exact ⟨w, rfl, Or.inl rfl⟩
  | literal hw hv => exact ⟨_, rfl, Or.inr ⟨_, hw, hv⟩⟩

/-- Words behind a mnemonic in other spelling stand for the same operand in another place. -/
theorem exists_operandForm {ws vs : List SourceWord} {o : Option Operand} (ho : OperandForm ws o)
    (h : SameOperands (ws.map SourceWord.text) (vs.map SourceWord.text)) :
    ∃ p, OperandForm vs p ∧
      o.map (Operand.translate .bare) = p.map (Operand.translate .bare) := by
  cases ho with
  | absent =>
    generalize hvs : vs.map SourceWord.text = texts at h
    cases h with
    | same =>
      obtain rfl := List.map_eq_nil_iff.1 hvs
      exact ⟨none, .absent, rfl⟩
  | @literal w value hw =>
    obtain ⟨text, hvs, hsame⟩ := h.of_singleton
    obtain ⟨v, rfl, rfl⟩ := List.map_eq_singleton_iff.1 hvs
    have hv : IsLiteral v.text value := by
      rcases hsame with heq | ⟨other, hother, hv⟩
      · rwa [heq]
      · rwa [hw.eq_of hother]
    exact ⟨_, .literal hv, rfl⟩
  | @name w hw =>
    obtain ⟨text, hvs, hsame⟩ := h.of_singleton
    obtain ⟨v, rfl, rfl⟩ := List.map_eq_singleton_iff.1 hvs
    rcases hsame with heq | ⟨value, hliteral, _⟩
    · have hname : v.name = w.name := by rw [SourceWord.name, heq, SourceWord.name]
      refine ⟨_, .name (by rwa [heq]), ?_⟩
      rw [hname]
      rfl
    · exact absurd hliteral (hw.1.not_isLiteral value)

/-- A line in other spelling stands for the same statement, but for places and for the name of the
operation. -/
theorem exists_lineForm {number other : Nat} {ws vs : List SourceWord} {s : Statement}
    (hs : LineForm number ws s)
    (h : Respelled (ws.map SourceWord.text) (vs.map SourceWord.text)) :
    ∃ t, LineForm other vs t ∧ s.translate .bare = t.translate .bare := by
  generalize hws : ws.map SourceWord.text = texts at h
  generalize hvs : vs.map SourceWord.text = others at h
  cases h with
  | unlabelled hfirst hoperation hoperands =>
    obtain ⟨w, ws, rfl, rfl, rfl⟩ := List.map_eq_cons_iff.1 hws
    obtain ⟨v, vs, rfl, rfl, rfl⟩ := List.map_eq_cons_iff.1 hvs
    cases hs with
    | unlabelled hm ho =>
      obtain ⟨k, hk, hnames⟩ := hoperation.exists_isMnemonic hm
      obtain ⟨p, hp, hoperand⟩ := exists_operandForm ho hoperands
      exact ⟨_, .unlabelled hk hp, Statement.translate_bare rfl hnames hoperand⟩
    | labelled hl => exact absurd hfirst (hl.2 _)
  | labelled hfirst hoperation hoperands =>
    obtain ⟨l, _, rfl, rfl, hwords⟩ := List.map_eq_cons_iff.1 hws
    obtain ⟨w, ws, rfl, rfl, rfl⟩ := List.map_eq_cons_iff.1 hwords
    obtain ⟨label, _, rfl, htext, hwords⟩ := List.map_eq_cons_iff.1 hvs
    obtain ⟨v, vs, rfl, rfl, rfl⟩ := List.map_eq_cons_iff.1 hwords
    cases hs with
    | unlabelled hm => exact absurd hm (hfirst _)
    | labelled hl hm ho =>
      obtain ⟨k, hk, hnames⟩ := hoperation.exists_isMnemonic hm
      obtain ⟨p, hp, hoperand⟩ := exists_operandForm ho hoperands
      have hname : label.name = l.name := by rw [SourceWord.name, htext, SourceWord.name]
      refine ⟨_, .labelled (by rwa [htext]) hk hp, Statement.translate_bare ?_ hnames hoperand⟩
      rw [hname]
      rfl

end Grammar

namespace Program

theorem rename_refl (p : Program) : p.rename (.refl String) = p := by
  have hentries : p.symbols.entries.map (Prod.map (Function.Embedding.refl String) id) =
      p.symbols.entries := List.map_id p.symbols.entries
  simp only [rename, SymbolTable.rename, hentries]

/-- Statements that are the same, but for places and for the names of operations, make the same
program. -/
theorem ofStatements_of_bare {ss ts : List Statement} {p : Program}
    (hbare : ss.map (Statement.translate .bare) = ts.map (Statement.translate .bare))
    (h : ofStatements ss = .ok p) : ofStatements ts = .ok p := by
  have hss := ofStatements_translate .bare ss
  have hts := ofStatements_translate .bare ts
  rw [← hbare, hss, h] at hts
  cases hother : ofStatements ts with
  | error e =>
    rw [hother] at hts
    exact absurd hts (by simp [Except.map, Except.mapError])
  | ok q =>
    rw [hother] at hts
    have hprogram : p.rename (.refl String) = q.rename (.refl String) := Except.ok.inj hts
    rw [rename_refl, rename_refl] at hprogram
    rw [hprogram]

end Program

/-! ## Other spellings of a source -/

namespace SourceLine

open Grammar

/-- Lines in other spelling have the statements of the lines, but for places and for the names of
operations. -/
theorem exists_reads_of_respelled {lines others : List SourceLine} {ss : List Statement}
    (hss : List.Forall₂ Reads lines ss)
    (h : List.Forall₂ Respelled (lines.map texts) (others.map texts)) :
    ∃ ts, List.Forall₂ Reads others ts ∧
      ss.map (Statement.translate .bare) = ts.map (Statement.translate .bare) := by
  rw [List.forall₂_map_left_iff, List.forall₂_map_right_iff] at h
  induction hss generalizing others with
  | nil =>
    cases h
    exact ⟨[], .nil, rfl⟩
  | cons hs _ ih =>
    cases h with
    | cons hline hrest =>
      obtain ⟨t, ht, hbare⟩ := exists_lineForm hs hline
      obtain ⟨ts, hts, hbares⟩ := ih hrest
      exact ⟨t :: ts, .cons ht hts, by rw [List.map_cons, List.map_cons, hbare, hbares]⟩

/-- A line with a statement is in its own spelling. -/
theorem Reads.respelled {line : SourceLine} {s : Statement} (h : line.Reads s) :
    Respelled line.texts line.texts := by
  obtain ⟨number, words⟩ := line
  have hform : LineForm number words s := h
  cases hform with
  | unlabelled hm _ => exact .unlabelled hm (.letters rfl) (.same _)
  | labelled hl _ _ => exact .labelled hl.2 (.letters rfl) (.same _)

end SourceLine

namespace Program

open Grammar SourceLine

variable {source other : String} {p : Program}

/-- A source that assembles has a statement on each line with words. -/
theorem exists_reads_of_assemble (h : assemble source = .ok p) :
    ∃ ss, List.Forall₂ Reads (filled (all source)) ss ∧ ofStatements ss = .ok p := by
  obtain ⟨ss, hparse, hss⟩ := exists_parse_of_assemble h
  exact ⟨ss, (Statement.parse_eq_ok_iff source ss).1 hparse, hss⟩

theorem assemble_of_respelled (h : assemble source = .ok p)
    (hother : List.Forall₂ Respelled (wordLists (textLines source)) (wordLists (textLines other))) :
    assemble other = .ok p := by
  obtain ⟨ss, hreads, hss⟩ := exists_reads_of_assemble h
  rw [← map_texts_filled, ← map_texts_filled] at hother
  obtain ⟨ts, hts, hbare⟩ := exists_reads_of_respelled hreads hother
  rw [assemble_of_parse_eq_ok ((Statement.parse_eq_ok_iff other ts).2 hts)]
  exact ofStatements_of_bare hbare hss

/-- The words of a source that assembles are in their own spelling. -/
theorem respelled_self (h : assemble source = .ok p) :
    List.Forall₂ Respelled (wordLists (textLines source)) (wordLists (textLines source)) := by
  obtain ⟨ss, hreads, _⟩ := exists_reads_of_assemble h
  rw [← map_texts_filled, List.forall₂_same]
  intro ws hws
  obtain ⟨line, hline, rfl⟩ := List.mem_map.1 hws
  obtain ⟨s, hs⟩ := exists_reads_of_forall₂ hreads line hline
  exact hs.respelled

/-- If a source assembles, so does one with the same words in other spelling, to the same image with
the same labels and the same length, and so does one that is laid out in another way. -/
theorem assemble_ignores_spelling_and_layout (h : assemble source = .ok p) :
    (∀ other, List.Forall₂ Respelled (wordLists (textLines source)) (wordLists (textLines other)) →
        assemble other = .ok p) ∧
      ∀ other, Relaid (textLines source) (textLines other) → assemble other = .ok p := by
  refine ⟨fun other hother => assemble_of_respelled h hother, fun other hother => ?_⟩
  have hself := respelled_self h
  exact assemble_of_respelled h (by rwa [← hother.wordLists_eq])

/-- A jump to itself and a number, in other letters, under another name and with a sign. -/
theorem assemble_jump_respelled :
    ∃ p, assemble "top BRA top\nx DAT 7" = .ok p ∧
      assemble "\ttop br top ; again\r\n\nx Dat +007" = .ok p ∧
      assemble "\n  top BRA top# again\r\nx DAT 7\r" = .ok p := by
  have hassemble : assemble "top BRA top\nx DAT 7" =
      .ok ⟨.ofList [600, 7], .ofList [("top", 0), ("x", 1)], 2⟩ := by decide +kernel
  have hwords : wordLists (textLines "top BRA top\nx DAT 7") =
      [["top".toList, "BRA".toList, "top".toList], ["x".toList, "DAT".toList, "7".toList]] := by
    decide +kernel
  have hrespelled : wordLists (textLines "\ttop br top ; again\r\n\nx Dat +007") =
      [["top".toList, "br".toList, "top".toList], ["x".toList, "Dat".toList, "+007".toList]] := by
    decide +kernel
  have hbra : IsMnemonic "BRA".toList .bra := isMnemonic_of_toUpper (by decide)
  have hbr : IsMnemonic "br".toList .br := isMnemonic_of_toUpper (by decide)
  have hseven : IsLiteral "7".toList 7 :=
    .unsigned ⟨by decide, List.all_eq_true.1 (by decide), rfl⟩ (by decide)
  have hsigned : IsLiteral "+007".toList 7 :=
    .plus ⟨by decide, List.all_eq_true.1 (by decide), rfl⟩ (by decide)
  have hlabel {cs : List Char} (h : ∀ m : Mnemonic, cs.map Char.toUpper ≠ m.name.toList) :
      ∀ m, ¬ IsMnemonic cs m := fun m hm => h m hm.2
  obtain ⟨hspelling, hlayout⟩ := assemble_ignores_spelling_and_layout hassemble
  refine ⟨_, hassemble, hspelling _ ?_, hlayout _ ?_⟩
  · rw [hwords, hrespelled]
    refine .cons (.labelled (hlabel fun m => ?_) (.names hbra hbr rfl) (.same _))
      (.cons (.labelled (hlabel fun m => ?_) (.letters (by decide)) (.literal hseven hsigned _)) .nil)
    · cases m <;> decide
    · cases m <;> decide
  · have hspaces : ∀ c ∈ [' ', ' '], Text.isSpace c := List.all_eq_true.1 (by decide)
    have hreturn : ∀ c ∈ ['\r'], Text.isSpace c := List.all_eq_true.1 (by decide)
    have hempty : ∀ c ∈ [], Text.isSpace c := fun c hc => absurd hc List.not_mem_nil
    have hstart : isCommentStart '#' := by decide
    have hindented : Relaid ["top BRA top".toList, "x DAT 7".toList]
        ["  top BRA top".toList, "x DAT 7".toList] := .indent hspaces _ _
    have hexplained : Relaid ["  top BRA top".toList, "x DAT 7".toList]
        ["  top BRA top# again\r".toList, "x DAT 7".toList] :=
      .comment hstart " again\r".toList _ _
    have hreturned : Relaid ["x DAT 7".toList] ["x DAT 7\r".toList] := .trail hreturn _ _
    exact ((hindented.trans hexplained).trans (hreturned.cons _)).trans (.blank hempty _)

end Program

end Mailbox
