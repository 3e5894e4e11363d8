import Mailbox.Assembly.Program
import Mailbox.Proofs.Assembly.Emission
import Mailbox.Proofs.Assembly.Parsing
import Mailbox.Proofs.Results
set_option autoImplicit false

/-!
# Assembling a source

Assembly either keeps the meaning of the source or tells of one thing that is wrong with it.  Main
statements: an assembled program represents the statements of its source, and the error of a source
that is not assembled is the first fault of the earliest pass that has one, where the passes are
reading, placing, referring and encoding.

Normative source: SPEC_FULL.md, sections 6, 7 and 8.
-/

namespace Mailbox.Program

open Faults

/-- A program has the words and the labels of statements. -/
structure Represents (p : Program) (ss : List Statement) : Prop where
  length_eq : p.length = ss.length
  holds : p.image.Holds ss
  fits : p.symbols.Fits ss

/-- Nothing is wrong with statements. -/
structure Acceptable (ss : List Statement) : Prop where
  placed : Faultless (Misplaced ss)
  referring : Faultless (At ss (Dangling ss))
  encodable : Faultless (At ss Unencodable)

/-- The error of statements.  A pass counts only if those before it find nothing. -/
inductive Rejected (ss : List Statement) (e : AssemblyError) : Prop where
  | misplaced (h : First (Misplaced ss) e)
  | dangling (hplaced : Faultless (Misplaced ss)) (h : First (At ss (Dangling ss)) e)
  | unencodable (hplaced : Faultless (Misplaced ss)) (hreferring : Faultless (At ss (Dangling ss)))
      (h : First (At ss Unencodable) e)

/-- The error of a source.  It is one of reading whenever the source cannot be read. -/
inductive Reports (source : String) (e : AssemblyError) : Prop where
  | unread (hparse : Statement.parse source = .error e)
      (h : SourceLine.FirstReport (SourceLine.all source) e)
  | rejected {ss : List Statement} (hparse : Statement.parse source = .ok ss) (h : Rejected ss e)

/-! ## Programs of statements -/

variable {ss : List Statement} {e : AssemblyError}

theorem Rejected.not_acceptable (h : Rejected ss e) : ¬ Acceptable ss := by
  intro hacceptable
  obtain ⟨hplaced, hreferring, hencodable⟩ := hacceptable
  cases h with
  | misplaced h => exact h.not_faultless hplaced
  | dangling _ h => exact h.not_faultless hreferring
  | unencodable _ _ h => exact h.not_faultless hencodable

/-- Statements have one error at most: that of the first pass that fails. -/
theorem Rejected.unique {f : AssemblyError} (he : Rejected ss e) (hf : Rejected ss f) : e = f := by
  cases he with
  | misplaced h =>
    cases hf with
    | misplaced h' => exact h.unique (misplaced_unambiguous ss) h'
    | dangling hplaced _ => exact absurd hplaced h.not_faultless
    | unencodable hplaced _ _ => exact absurd hplaced h.not_faultless
  | dangling hplaced h =>
    cases hf with
    | misplaced h' => exact absurd hplaced h'.not_faultless
    | dangling _ h' => exact h.unique (dangling_unambiguous ss) h'
    | unencodable _ hreferring _ => exact absurd hreferring h.not_faultless
  | unencodable hplaced hreferring h =>
    cases hf with
    | misplaced h' => exact absurd hplaced h'.not_faultless
    | dangling _ h' => exact absurd hreferring h'.not_faultless
    | unencodable _ _ h' => exact h.unique (unencodable_unambiguous ss) h'

/-- What assembling statements comes to. -/
theorem ofStatements_cases (ss : List Statement) :
    (∃ p, ofStatements ss = .ok p ∧ p.Represents ss ∧ Acceptable ss) ∨
      ∃ e, ofStatements ss = .error e ∧ Rejected ss e := by
  unfold ofStatements
  rcases SymbolTable.ofStatements_cases ss with
    ⟨symbols, hsymbols, hfits, hplaced, hreferring⟩ | ⟨e, he, hfirst⟩ | ⟨e, he, hplaced, hfirst⟩
  · rw [hsymbols]
    rcases Image.ofStatements_cases hfits hplaced hreferring with
      ⟨image, himage, hholds, hencodable⟩ | ⟨e, he, hfirst⟩
    · refine Or.inl ⟨⟨image, symbols, ss.length⟩, ?_, ⟨rfl, hholds, hfits⟩,
        ⟨hplaced, hreferring, hencodable⟩⟩
      simp only [bind, Except.bind, himage]
      rfl
    · refine Or.inr ⟨e, ?_, .unencodable hplaced hreferring hfirst⟩
      simp only [bind, Except.bind, he]
  · rw [he]
    exact Or.inr ⟨e, rfl, .misplaced hfirst⟩
  · rw [he]
    exact Or.inr ⟨e, rfl, .dangling hplaced hfirst⟩

theorem ofStatements_eq_error_iff (ss : List Statement) (e : AssemblyError) :
    ofStatements ss = .error e ↔ Rejected ss e := by
  rcases ofStatements_cases ss with ⟨p, hp, _, hacceptable⟩ | ⟨f, hf, hrejected⟩
  · rw [hp]
    exact ⟨fun h => absurd h (by simp), fun h => absurd hacceptable h.not_acceptable⟩
  · rw [hf]
    constructor
    · intro h
      obtain rfl := Except.error.inj h
      exact hrejected
    · intro h
      rw [hrejected.unique h]

theorem exists_ofStatements_eq_ok_iff (ss : List Statement) :
    (∃ p, ofStatements ss = .ok p) ↔ Acceptable ss := by
  rcases ofStatements_cases ss with ⟨p, hp, _, hacceptable⟩ | ⟨e, he, hrejected⟩
  · exact ⟨fun _ => hacceptable, fun _ => ⟨p, hp⟩⟩
  · constructor
    · intro hok
      obtain ⟨p, hp⟩ := hok
      exact absurd (he.symm.trans hp) (by simp)
    · intro hacceptable
      exact absurd hacceptable hrejected.not_acceptable

/-! ## Programs of sources -/

theorem assemble_of_parse_eq_ok {source : String} (h : Statement.parse source = .ok ss) :
    assemble source = ofStatements ss := by
  simp only [assemble, bind, Except.bind, h]

theorem assemble_of_parse_eq_error {source : String} (h : Statement.parse source = .error e) :
    assemble source = .error e := by
  simp only [assemble, bind, Except.bind, h]

/-- A source that is read assembles if and only if nothing is wrong with its statements. -/
theorem exists_assemble_iff_acceptable {source : String} (h : Statement.parse source = .ok ss) :
    (∃ p, assemble source = .ok p) ↔ Acceptable ss := by
  rw [assemble_of_parse_eq_ok h, exists_ofStatements_eq_ok_iff]

/-- The program of a source is that of the statements it is read as. -/
theorem exists_parse_of_assemble {source : String} {p : Program} (h : assemble source = .ok p) :
    ∃ ss, Statement.parse source = .ok ss ∧ ofStatements ss = .ok p :=
  except_bind_eq_ok.1 h

theorem represents_of_ofStatements {p : Program} (h : ofStatements ss = .ok p) :
    p.Represents ss := by
  rcases ofStatements_cases ss with ⟨q, hq, hrepresents, _⟩ | ⟨e, he, _⟩
  · obtain rfl := Except.ok.inj (h.symm.trans hq)
    exact hrepresents
  · exact absurd (h.symm.trans he) (by simp)

/-- An assembled program represents the statements that its source is read as. -/
theorem represents_of_assemble {source : String} {p : Program}
    (hparse : Statement.parse source = .ok ss) (h : assemble source = .ok p) : p.Represents ss := by
  rw [assemble_of_parse_eq_ok hparse] at h
  exact represents_of_ofStatements h

/-- An assembled program means what its source says. -/
theorem assemble_represents {source : String} {p : Program} (h : assemble source = .ok p) :
    ∃ ss, Statement.parse source = .ok ss ∧ p.Represents ss := by
  cases hparse : Statement.parse source with
  | error e =>
    rw [assemble_of_parse_eq_error hparse] at h
    exact absurd h (by simp)
  | ok ss =>
    rw [assemble_of_parse_eq_ok hparse] at h
    rcases ofStatements_cases ss with ⟨q, hq, hrepresents, _⟩ | ⟨e, he, _⟩
    · obtain rfl := Except.ok.inj (h.symm.trans hq)
      exact ⟨ss, rfl, hrepresents⟩
    · exact absurd (h.symm.trans he) (by simp)

/-- A label used before and after its definition, as an address and as data. -/
theorem assemble_represents_loop :
    ∃ ss, Statement.parse "top IN\n STA x\n BRA top\nx DAT -7\n DAT x" = .ok ss ∧
      Represents ⟨Image.ofList [901, 303, 600, Word.clamp (-7), 3],
        SymbolTable.ofList [("top", 0), ("x", 3)], 5⟩ ss :=
  assemble_represents (by decide +kernel)

theorem assemble_eq_error_iff (source : String) (e : AssemblyError) :
    assemble source = .error e ↔ Reports source e := by
  constructor
  · intro h
    cases hparse : Statement.parse source with
    | error f =>
      rw [assemble_of_parse_eq_error hparse] at h
      obtain rfl := Except.error.inj h
      exact .unread hparse ((Statement.parse_eq_error_iff source f).1 hparse)
    | ok ss =>
      rw [assemble_of_parse_eq_ok hparse] at h
      exact .rejected hparse ((ofStatements_eq_error_iff ss e).1 h)
  · intro hreports
    cases hreports with
    | unread hparse _ => exact assemble_of_parse_eq_error hparse
    | rejected hparse h =>
      rw [assemble_of_parse_eq_ok hparse]
      exact (ofStatements_eq_error_iff _ e).2 h

theorem exists_assemble_eq_ok_iff (source : String) :
    (∃ p, assemble source = .ok p) ↔
      (∀ line ∈ SourceLine.all source, line.WellFormed) ∧
        ∀ ss, Statement.parse source = .ok ss → Acceptable ss := by
  rw [← Statement.exists_parse_eq_ok_iff]
  cases hparse : Statement.parse source with
  | error e =>
    rw [assemble_of_parse_eq_error hparse]
    constructor
    · intro hok
      obtain ⟨p, hp⟩ := hok
      exact absurd hp (by simp)
    · intro hread
      obtain ⟨⟨ss, hss⟩, _⟩ := hread
      exact absurd hss (by simp)
  | ok ss =>
    rw [exists_assemble_iff_acceptable hparse]
    constructor
    · intro h
      refine ⟨⟨ss, rfl⟩, fun ts hts => ?_⟩
      obtain rfl := Except.ok.inj hts
      exact h
    · intro hread
      obtain ⟨_, h⟩ := hread
      exact h ss rfl

/-- With the table of the statements themselves, encoding fails on operands only. -/
theorem image_error_of_symbols {symbols : SymbolTable}
    (hsymbols : SymbolTable.ofStatements ss = .ok symbols)
    (h : Image.ofStatements symbols ss = .error e) : First (At ss Unencodable) e := by
  rcases SymbolTable.ofStatements_cases ss with
    ⟨table, htable, hfits, hplaced, hreferring⟩ | ⟨f, hf, _⟩ | ⟨f, hf, _⟩
  · obtain rfl := Except.ok.inj (hsymbols.symm.trans htable)
    rcases Image.ofStatements_cases hfits hplaced hreferring with ⟨image, himage, _⟩ | ⟨f, hf, hfirst⟩
    · exact absurd (h.symm.trans himage) (by simp)
    · obtain rfl := Except.error.inj (h.symm.trans hf)
      exact hfirst
  · exact absurd (hsymbols.symm.trans hf) (by simp)
  · exact absurd (hsymbols.symm.trans hf) (by simp)

theorem fault_of_unencodable (h : First (At ss Unencodable) e) :
    e.fault ≠ .addressOverflow ∧ ∀ name, e.fault ≠ .undefinedLabel name := by
  obtain ⟨n, ⟨s, _, he⟩, _⟩ := h
  cases he <;> simp

/-- Assembly reports the first fault of the earliest pass that has one, and succeeds if there is
none. -/
theorem assemble_reports (source : String) :
    (∀ e, assemble source = .error e ↔ Reports source e) ∧
      ((∃ p, assemble source = .ok p) ↔
        (∀ line ∈ SourceLine.all source, line.WellFormed) ∧
          ∀ ss, Statement.parse source = .ok ss → Acceptable ss) ∧
      ∀ ss symbols, SymbolTable.ofStatements ss = .ok symbols →
        ∀ e, Image.ofStatements symbols ss = .error e →
          First (At ss Unencodable) e ∧ e.fault ≠ .addressOverflow ∧
            ∀ name, e.fault ≠ .undefinedLabel name := by
  refine ⟨assemble_eq_error_iff source, exists_assemble_eq_ok_iff source, ?_⟩
  intro ss symbols hsymbols e h
  have hfirst := image_error_of_symbols hsymbols h
  exact ⟨hfirst, fault_of_unencodable hfirst⟩

end Mailbox.Program
