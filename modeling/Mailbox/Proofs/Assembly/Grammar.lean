import Mailbox.Proofs.Assembly.SourceLine
import Mailbox.Proofs.Assembly.WordClass
set_option autoImplicit false

/-!
# The grammar of lines

A line is empty or consists of a name or not, a mnemonic, and a literal or a name or neither.  The
relations of this module say which statement a line of this form stands for, and what is wrong with
any other line, in terms of the classes of its words.  Main statements: every line with words has
this form or something is wrong with it, and reading its words gives the one or the other.

Normative source: SPEC_FULL.md, section 4.1.
-/

namespace Mailbox

namespace Grammar

/-- The words behind the mnemonic of a line, and the operand they stand for. -/
inductive OperandForm : List SourceWord → Option Operand → Prop
  | absent : OperandForm [] none
  | literal {w : SourceWord} {value : Word} :
      IsLiteral w.text value → OperandForm [w] (some (.literal value w.span))
  | name {w : SourceWord} : IsName w.text → OperandForm [w] (some (.label ⟨w.name, w.span⟩))

/-- From the first to the last of the words of a line. -/
def cover (first : SourceWord) (rest : List SourceWord) : Span :=
  first.span.join ((first :: rest).getLast (List.cons_ne_nil _ _)).span

/-- The words of a line with a number, and the statement they stand for. -/
inductive LineForm (number : Nat) : List SourceWord → Statement → Prop
  | unlabelled {w : SourceWord} {ws : List SourceWord} {m : Mnemonic} {o : Option Operand} :
      IsMnemonic w.text m → OperandForm ws o →
      LineForm number (w :: ws) ⟨none, m, w.span, o, number, cover w ws⟩
  | labelled {l w : SourceWord} {ws : List SourceWord} {m : Mnemonic} {o : Option Operand} :
      IsName l.text → IsMnemonic w.text m → OperandForm ws o →
      LineForm number (l :: w :: ws)
        ⟨some ⟨l.name, l.span⟩, m, w.span, o, number, cover l (w :: ws)⟩

/-- What is wrong with the words behind a mnemonic, and with which of them.  A first word that is
neither literal nor name counts before a second word. -/
inductive OperandFault : List SourceWord → SourceWord → AssemblyFault → Prop
  | malformed {w : SourceWord} {ws : List SourceWord} :
      (∀ value, ¬ IsLiteral w.text value) → ¬ IsName w.text →
      OperandFault (w :: ws) w (.malformedOperand w.name)
  | extra {w x : SourceWord} {ws : List SourceWord} {content : Content} :
      (∃ value, IsLiteral w.text value) ∨ IsName w.text → Says x.text content →
      OperandFault (w :: x :: ws) x (.unexpectedToken content)

/-- What is wrong with a line, and with which of its words. -/
inductive LineFault : List SourceWord → SourceWord → AssemblyFault → Prop
  /-- A mnemonic behind a word that is no name.  A literal is quoted by its value. -/
  | label {l w : SourceWord} {ws : List SourceWord} {m : Mnemonic} {content : Content} :
      (∀ k, ¬ IsMnemonic l.text k) → ¬ IsName l.text → IsMnemonic w.text m →
      Says l.text content → LineFault (l :: w :: ws) l (.invalidLabel content.text)
  /-- Two names: a label and a misspelled mnemonic. -/
  | secondName {l w : SourceWord} {ws : List SourceWord} :
      IsName l.text → IsName w.text → LineFault (l :: w :: ws) w (.unknownMnemonic w.name)
  /-- A literal, and no mnemonic behind it. -/
  | firstLiteral {l : SourceWord} {ws : List SourceWord} {value : Word} :
      IsLiteral l.text value → (∀ w ∈ ws.head?, ∀ m, ¬ IsMnemonic w.text m) →
      LineFault (l :: ws) l (.unexpectedToken (.literal value))
  /-- Any other word, and no mnemonic or misspelled mnemonic behind it. -/
  | first {l : SourceWord} {ws : List SourceWord} :
      (∀ k, ¬ IsMnemonic l.text k) → (∀ value, ¬ IsLiteral l.text value) →
      (∀ w ∈ ws.head?, (∀ m, ¬ IsMnemonic w.text m) ∧ ¬ (IsName l.text ∧ IsName w.text)) →
      LineFault (l :: ws) l (.unknownMnemonic l.name)
  | operand {w x : SourceWord} {ws : List SourceWord} {m : Mnemonic} {fault : AssemblyFault} :
      IsMnemonic w.text m → OperandFault ws x fault → LineFault (w :: ws) x fault
  | labelledOperand {l w x : SourceWord} {ws : List SourceWord} {m : Mnemonic}
      {fault : AssemblyFault} :
      IsName l.text → IsMnemonic w.text m → OperandFault ws x fault →
      LineFault (l :: w :: ws) x fault

/-! ## Every line has a form or a fault -/

theorem operand_total (ws : List SourceWord) :
    (∃ o, OperandForm ws o) ∨ ∃ w fault, OperandFault ws w fault := by
  cases ws with
  | nil => exact Or.inl ⟨none, .absent⟩
  | cons w ws =>
    by_cases hl : ∃ value, IsLiteral w.text value
    · cases ws with
      | nil =>
        obtain ⟨value, hl⟩ := hl
        exact Or.inl ⟨_, .literal hl⟩
      | cons x ws =>
        obtain ⟨content, hx⟩ := exists_says x.text
        exact Or.inr ⟨_, _, .extra (Or.inl hl) hx⟩
    · by_cases hn : IsName w.text
      · cases ws with
        | nil => exact Or.inl ⟨_, .name hn⟩
        | cons x ws =>
          obtain ⟨content, hx⟩ := exists_says x.text
          exact Or.inr ⟨_, _, .extra (Or.inr hn) hx⟩
      · exact Or.inr ⟨_, _, .malformed (fun value h => hl ⟨value, h⟩) hn⟩

theorem line_total (number : Nat) {ws : List SourceWord} (hne : ws ≠ []) :
    (∃ s, LineForm number ws s) ∨ ∃ w fault, LineFault ws w fault := by
  cases ws with
  | nil => exact absurd rfl hne
  | cons l ws =>
    by_cases hm : ∃ m, IsMnemonic l.text m
    · obtain ⟨m, hm⟩ := hm
      rcases operand_total ws with ⟨o, ho⟩ | ⟨w, fault, hf⟩
      · exact Or.inl ⟨_, .unlabelled hm ho⟩
      · exact Or.inr ⟨_, _, .operand hm hf⟩
    · have hnone : ∀ k, ¬ IsMnemonic l.text k := fun k hk => hm ⟨k, hk⟩
      by_cases hsecond : ∃ w ∈ ws.head?, ∃ m, IsMnemonic w.text m
      · obtain ⟨w, hw, m, hwm⟩ := hsecond
        cases ws with
        | nil => exact absurd hw (by simp)
        | cons x ws =>
          obtain rfl : x = w := by simpa using hw
          by_cases hn : IsName l.text
          · rcases operand_total ws with ⟨o, ho⟩ | ⟨y, fault, hf⟩
            · exact Or.inl ⟨_, .labelled hn hwm ho⟩
            · exact Or.inr ⟨_, _, .labelledOperand hn hwm hf⟩
          · obtain ⟨content, hs⟩ := exists_says l.text
            exact Or.inr ⟨_, _, .label hnone hn hwm hs⟩
      · have hrest : ∀ w ∈ ws.head?, ∀ m, ¬ IsMnemonic w.text m :=
          fun w hw m hwm => hsecond ⟨w, hw, m, hwm⟩
        by_cases hl : ∃ value, IsLiteral l.text value
        · obtain ⟨value, hl⟩ := hl
          exact Or.inr ⟨_, _, .firstLiteral hl hrest⟩
        · by_cases hnames : ∃ w ∈ ws.head?, IsName l.text ∧ IsName w.text
          · obtain ⟨w, hw, hln, hwn⟩ := hnames
            cases ws with
            | nil => exact absurd hw (by simp)
            | cons x ws =>
              obtain rfl : x = w := by simpa using hw
              exact Or.inr ⟨_, _, .secondName hln hwn⟩
          · refine Or.inr ⟨_, _, .first hnone (fun value h => hl ⟨value, h⟩) ?_⟩
            exact fun w hw => ⟨hrest w hw, fun hn => hnames ⟨w, hw, hn⟩⟩

/-! ## Tokens of words of a class -/

variable {n : Nat} {w : SourceWord}

theorem mnemonic?_of_isMnemonic {m : Mnemonic} (h : IsMnemonic w.text m) :
    (w.token n).mnemonic? = some m := by
  unfold Token.mnemonic? SourceWord.token
  rw [ofWord_of_isIdentifier h.1]
  exact (isMnemonic_iff h.1 m).1 h

theorem mnemonic?_of_not (hne : w.text ≠ []) (h : ∀ m, ¬ IsMnemonic w.text m) :
    (w.token n).mnemonic? = none := by
  obtain ⟨content, hs⟩ := exists_says w.text
  unfold Token.mnemonic? SourceWord.token
  rw [hs.ofWord_eq hne]
  cases hs with
  | literal _ => rfl
  | malformed _ _ => rfl
  | identifier hi => exact (isName_iff hi).1 ⟨hi, h⟩

theorem mnemonic?_of_isName (h : IsName w.text) : (w.token n).mnemonic? = none := by
  unfold Token.mnemonic? SourceWord.token
  rw [ofWord_of_isIdentifier h.1]
  exact (isName_iff h.1).1 h

theorem labelOfToken_of_isName (h : IsName w.text) :
    Label.ofToken (w.token n) = .ok ⟨w.name, w.span⟩ := by
  unfold Label.ofToken SourceWord.token
  rw [ofWord_of_isIdentifier h.1]
  simp only [(isLabelName_iff w.text).2 h, if_true]
  rfl

theorem labelOfToken_of_not_isName (hne : w.text ≠ []) (h : ¬ IsName w.text) {content : Content}
    (hs : Says w.text content) :
    Label.ofToken (w.token n) = .error ⟨n, w.span, .invalidLabel content.text⟩ := by
  have hlabel : isLabelName (String.ofList w.text) = false := by
    rw [Bool.eq_false_iff]
    exact fun hl => h ((isLabelName_iff w.text).1 hl)
  unfold Label.ofToken SourceWord.token
  rw [hs.ofWord_eq hne]
  cases hs with
  | literal _ => rfl
  | malformed _ _ => rfl
  | identifier _ => simp only [hlabel]; rfl

theorem operandOfToken_of_isLiteral {value : Word} (h : IsLiteral w.text value) :
    Operand.ofToken (w.token n) = .ok (.literal value w.span) := by
  unfold Operand.ofToken SourceWord.token
  rw [ofWord_of_isLiteral h]

theorem operandOfToken_of_isName (h : IsName w.text) :
    Operand.ofToken (w.token n) = .ok (.label ⟨w.name, w.span⟩) := by
  unfold Operand.ofToken SourceWord.token
  rw [ofWord_of_isIdentifier h.1]
  simp only [(isLabelName_iff w.text).2 h, if_true]
  rfl

theorem operandOfToken_of_neither (hne : w.text ≠ []) (hl : ∀ value, ¬ IsLiteral w.text value)
    (hn : ¬ IsName w.text) :
    Operand.ofToken (w.token n) = .error ⟨n, w.span, .malformedOperand w.name⟩ := by
  have hlabel : isLabelName (String.ofList w.text) = false := by
    rw [Bool.eq_false_iff]
    exact fun h => hn ((isLabelName_iff w.text).1 h)
  obtain ⟨content, hs⟩ := exists_says w.text
  unfold Operand.ofToken SourceWord.token
  rw [hs.ofWord_eq hne]
  cases hs with
  | literal h => exact absurd h (hl _)
  | malformed _ _ => rfl
  | identifier _ => simp only [hlabel]; rfl

/-! ## Reading the words of a line -/

theorem operandOfTokens_of_form {ws : List SourceWord} {o : Option Operand}
    (h : OperandForm ws o) :
    Statement.operandOfTokens (ws.map (SourceWord.token n)) = .ok o := by
  cases h with
  | absent => rfl
  | literal hl =>
    simp only [List.map_cons, Statement.operandOfTokens, operandOfToken_of_isLiteral hl]
    rfl
  | name hn =>
    simp only [List.map_cons, Statement.operandOfTokens, operandOfToken_of_isName hn]
    rfl

theorem operandOfTokens_of_fault {ws : List SourceWord} {x : SourceWord} {fault : AssemblyFault}
    (hne : ∀ w ∈ ws, w.text ≠ []) (h : OperandFault ws x fault) :
    Statement.operandOfTokens (ws.map (SourceWord.token n)) = .error ⟨n, x.span, fault⟩ := by
  cases h with
  | malformed hl hn =>
    have hx := operandOfToken_of_neither (n := n) (hne _ List.mem_cons_self) hl hn
    simp only [List.map_cons, Statement.operandOfTokens, hx]
    rfl
  | @extra w x ws content hw hs =>
    have hx : (x.token n).content = content :=
      hs.ofWord_eq (hne x (List.mem_cons_of_mem w List.mem_cons_self))
    simp only [List.map_cons, Statement.operandOfTokens, hx]
    rcases hw with ⟨value, hl⟩ | hn
    · rw [operandOfToken_of_isLiteral hl]
      rfl
    · rw [operandOfToken_of_isName hn]
      rfl

theorem cover_eq (first : SourceWord) (rest : List SourceWord) :
    (first.token n).span.join
      ((first.token n :: rest.map (SourceWord.token n)).getLast (by simp)).span =
        cover first rest := by
  have hlast : (first.token n :: rest.map (SourceWord.token n)).getLast (by simp) =
      ((first :: rest).getLast (by simp)).token n :=
    List.getLast_map (f := SourceWord.token n) (l := first :: rest) (by simp)
  rw [hlast]
  rfl

theorem ofTokens_of_form {first : SourceWord} {rest : List SourceWord} {s : Statement}
    (h : LineForm n (first :: rest) s) :
    Statement.ofTokens (first.token n) (rest.map (SourceWord.token n)) = .ok s := by
  cases h with
  | unlabelled hm ho =>
    simp only [Statement.ofTokens, mnemonic?_of_isMnemonic hm, operandOfTokens_of_form ho, cover_eq]
    rfl
  | @labelled _ w ws _ _ hl hm ho =>
    have hcover := cover_eq (n := n) first (w :: ws)
    simp only [List.map_cons] at hcover
    simp only [Statement.ofTokens, List.map_cons, mnemonic?_of_isName hl,
      mnemonic?_of_isMnemonic hm, labelOfToken_of_isName hl, operandOfTokens_of_form ho, hcover]
    rfl

/-- A word that is no mnemonic and has no mnemonic behind it stops the line there. -/
theorem ofTokens_of_no_mnemonic {first : SourceWord} {rest : List SourceWord}
    (hf : (first.token n).mnemonic? = none)
    (hr : ∀ w ∈ rest.head?, (w.token n).mnemonic? = none) :
    Statement.ofTokens (first.token n) (rest.map (SourceWord.token n)) =
      .error (Statement.missingMnemonic (first.token n) (rest.map (SourceWord.token n))) := by
  unfold Statement.ofTokens
  rw [hf]
  cases rest with
  | nil => rfl
  | cons w rest =>
    have hw := hr w rfl
    simp only [List.map_cons, hw]

theorem ofTokens_of_fault {first : SourceWord} {rest : List SourceWord} {x : SourceWord}
    {fault : AssemblyFault} (hne : ∀ w ∈ first :: rest, w.text ≠ [])
    (h : LineFault (first :: rest) x fault) :
    Statement.ofTokens (first.token n) (rest.map (SourceWord.token n)) =
      .error ⟨n, x.span, fault⟩ := by
  have hfirst : first.text ≠ [] := hne first List.mem_cons_self
  have hrest : ∀ w ∈ rest, w.text ≠ [] := fun w hw => hne w (List.mem_cons_of_mem first hw)
  cases h with
  | operand hm hf =>
    simp only [Statement.ofTokens, mnemonic?_of_isMnemonic hm, operandOfTokens_of_fault hrest hf]
    rfl
  | @labelledOperand _ w _ ws _ _ hl hm hf =>
    have hws : ∀ v ∈ ws, v.text ≠ [] := fun v hv => hrest v (List.mem_cons_of_mem w hv)
    simp only [Statement.ofTokens, List.map_cons, mnemonic?_of_isName hl,
      mnemonic?_of_isMnemonic hm, labelOfToken_of_isName hl, operandOfTokens_of_fault hws hf]
    rfl
  | label hnone hn hm hs =>
    simp only [Statement.ofTokens, List.map_cons, mnemonic?_of_not hfirst hnone,
      mnemonic?_of_isMnemonic hm, labelOfToken_of_not_isName hfirst hn hs]
    rfl
  | secondName hl hw =>
    rw [ofTokens_of_no_mnemonic (mnemonic?_of_isName hl) (by
      intro v hv
      obtain rfl : x = v := by simpa using hv
      exact mnemonic?_of_isName hw)]
    simp only [Statement.missingMnemonic, SourceWord.token, List.map_cons,
      ofWord_of_isIdentifier hl.1, ofWord_of_isIdentifier hw.1]
    rfl
  | firstLiteral hl hr =>
    have hnone : ∀ m, ¬ IsMnemonic first.text m := fun m hm => hm.1.not_isLiteral _ hl
    rw [ofTokens_of_no_mnemonic (mnemonic?_of_not hfirst hnone) (fun w hw =>
      mnemonic?_of_not (hrest w (List.mem_of_mem_head? hw)) (hr w hw))]
    simp only [Statement.missingMnemonic, SourceWord.token, ofWord_of_isLiteral hl]
    rfl
  | first hnone hl hr =>
    rw [ofTokens_of_no_mnemonic (mnemonic?_of_not hfirst hnone) (fun w hw =>
      mnemonic?_of_not (hrest w (List.mem_of_mem_head? hw)) (hr w hw).1)]
    obtain ⟨content, hs⟩ := exists_says first.text
    have hcontent : (first.token n).content = content := hs.ofWord_eq hfirst
    unfold Statement.missingMnemonic
    rw [hcontent]
    cases hs with
    | literal h => exact absurd h (hl _)
    | malformed _ _ => rfl
    | identifier hi =>
      cases rest with
      | nil => rfl
      | cons w rest =>
        obtain ⟨hwm, hnames⟩ := hr w rfl
        have hw : ¬ IsIdentifier w.text := fun h => hnames ⟨⟨hi, hnone⟩, ⟨h, hwm⟩⟩
        obtain ⟨other, hso⟩ := exists_says w.text
        have hother : w.token n = ⟨other, w.span, n⟩ := by
          unfold SourceWord.token
          rw [hso.ofWord_eq (hrest w List.mem_cons_self)]
        rw [List.map_cons, hother]
        cases hso with
        | literal _ => rfl
        | malformed _ _ => rfl
        | identifier h => exact absurd h hw

end Grammar

namespace SourceLine

/-- The line has the form of a statement. -/
def Reads (line : SourceLine) (s : Statement) : Prop :=
  Grammar.LineForm line.number line.words s

/-- The line is empty or has the form of a statement. -/
def WellFormed (line : SourceLine) : Prop :=
  line.words = [] ∨ ∃ s, line.Reads s

/-- What is wrong with the line, and where. -/
def Reports (line : SourceLine) (e : AssemblyError) : Prop :=
  ∃ w fault, Grammar.LineFault line.words w fault ∧ e = ⟨line.number, w.span, fault⟩

/-- The words of a line have characters. -/
def HasText (line : SourceLine) : Prop :=
  ∀ w ∈ line.words, w.text ≠ []

end SourceLine

end Mailbox
