import Mailbox.Proofs.Assembly.Assembling
import Mailbox.Proofs.Assembly.Joining
set_option autoImplicit false

/-!
# Appending lines

Addresses are given from the first statement on, and a label that has an address keeps it, so the
lines at the end of a source have no say in what stands before them.  Main statement: a program to
which lines are appended goes on where it ended, and what it had before is as it was.

Normative source: SPEC_FULL.md, section 4.2 (addresses by source order).
-/

namespace Mailbox

/-! ## Labels -/

namespace SymbolTable

/-- Every label of a table has its address in a larger one. -/
def Extends (larger table : SymbolTable) : Prop :=
  ∀ name n, table.address? name = some n → larger.address? name = some n

variable {table larger : SymbolTable} {ss ts : List Statement}

/-- With more statements behind them, statements carry the labels that they carried. -/
theorem Fits.extends_append (h : table.Fits ss) (hlarger : larger.Fits (ss ++ ts)) :
    larger.Extends table := by
  intro name n hn
  have hdefines := (h.address?_iff name n).1 hn
  exact (hlarger.address?_iff name n).2 ((Statement.defines_append_of_lt hdefines.lt).2 hdefines)

theorem Fits.labelAt?_append (h : table.Fits ss) (hlarger : larger.Fits (ss ++ ts)) {n : Nat}
    (hn : n < ss.length) : larger.labelAt? n = table.labelAt? n := by
  apply Option.ext
  intro name
  rw [hlarger.labelAt?_iff, h.labelAt?_iff, Statement.defines_append_of_lt hn]

/-- A label that is new belongs to one of the statements behind. -/
theorem Fits.length_le_of_new (h : table.Fits ss) (hlarger : larger.Fits (ss ++ ts))
    {name : String} {n : Nat} (hn : larger.address? name = some n)
    (hnew : table.address? name = none) : ss.length ≤ n := by
  refine Nat.le_of_not_lt fun hlt => ?_
  have hdefines := (Statement.defines_append_of_lt hlt).1 ((hlarger.address?_iff name n).1 hn)
  rw [(h.address?_iff name n).2 hdefines] at hnew
  exact absurd hnew (by simp)

end SymbolTable

/-! ## Words -/

namespace Statement

variable {table larger : SymbolTable} {s : Statement}

theorem operandValue_of_extends (h : larger.Extends table) {value : Option Word}
    (hv : s.operandValue table = .ok value) : s.operandValue larger = .ok value := by
  rcases ho : s.operand with _ | ⟨literal, span⟩ | label
  · simpa only [operandValue, ho] using hv
  · simpa only [operandValue, ho] using hv
  · simp only [operandValue, ho] at hv ⊢
    cases haddress : table.address? label.name with
    | none =>
      rw [haddress] at hv
      exact absurd hv (by simp)
    | some n =>
      rw [haddress] at hv
      rw [h label.name n haddress]
      exact hv

/-- A statement that has a word has the same word when more labels are known. -/
theorem encode_of_extends (h : larger.Extends table) {w : Word} (hw : s.encode table = .ok w) :
    s.encode larger = .ok w := by
  obtain ⟨value, hvalue, hword⟩ := except_bind_eq_ok.1 hw
  exact except_bind_eq_ok.2 ⟨value, operandValue_of_extends h hvalue, hword⟩

end Statement

/-- The mailboxes of statements have the same words when more statements follow. -/
theorem Image.read_append {table larger : SymbolTable} {ss ts : List Statement}
    {image final : Image} (hextends : larger.Extends table)
    (h : ofStatements table ss = .ok image) (hfinal : ofStatements larger (ss ++ ts) = .ok final)
    {a : Address} (ha : a.val < ss.length) : final.read a = image.read a := by
  have hs : ss[a.val]? = some ss[a.val] := List.getElem?_eq_getElem ha
  have hs' : (ss ++ ts)[a.val]? = some ss[a.val] := by rw [List.getElem?_append_left ha, hs]
  obtain ⟨b, hb, hword⟩ := encodeFrom_writes h hs
  obtain ⟨c, hc, hword'⟩ := encodeFrom_writes hfinal hs'
  obtain rfl : b = a := Fin.ext (by omega)
  obtain rfl : c = b := Fin.ext (by omega)
  exact Except.ok.inj (hword'.symm.trans (Statement.encode_of_extends hextends hword))

/-! ## Programs -/

/-- The statements of a source with lines behind it start with the statements of the source. -/
theorem Statement.exists_parse_append {a b : String} {ss us : List Statement}
    (ha : parse a = .ok ss) (h : parse (a ++ "\n" ++ b) = .ok us) : ∃ ts, us = ss ++ ts := by
  unfold parse at ha h
  rw [Token.lines_join, ofLines_append] at h
  obtain ⟨ss', hfirst, h⟩ := except_bind_eq_ok.1 h
  obtain ⟨ts, _, h⟩ := except_bind_eq_ok.1 h
  obtain rfl := Except.ok.inj (hfirst.symm.trans ha)
  exact ⟨ts, (Except.ok.inj h).symm⟩

namespace Program

/-- A program goes on where another ends, and is like it up to there. -/
structure Continues (q p : Program) : Prop where
  length_le : p.length ≤ q.length
  read_eq : ∀ a : Address, a.val < p.length → q.image.read a = p.image.read a
  address?_of_some : ∀ name n, p.symbols.address? name = some n → q.symbols.address? name = some n
  labelAt?_eq : ∀ n < p.length, q.symbols.labelAt? n = p.symbols.labelAt? n
  le_of_new : ∀ name n, q.symbols.address? name = some n → p.symbols.address? name = none →
    p.length ≤ n

theorem ofStatements_eq_ok {ss : List Statement} {p : Program} (h : ofStatements ss = .ok p) :
    SymbolTable.ofStatements ss = .ok p.symbols ∧
      Image.ofStatements p.symbols ss = .ok p.image ∧ p.length = ss.length := by
  obtain ⟨symbols, hsymbols, h⟩ := except_bind_eq_ok.1 h
  obtain ⟨image, himage, h⟩ := except_bind_eq_ok.1 h
  obtain rfl := Except.ok.inj h
  exact ⟨hsymbols, himage, rfl⟩

/-- The program of a list of statements continues that of its first statements. -/
theorem ofStatements_append {ss ts : List Statement} {p q : Program}
    (hp : ofStatements ss = .ok p) (hq : ofStatements (ss ++ ts) = .ok q) : q.Continues p := by
  obtain ⟨_, himage, hlength⟩ := ofStatements_eq_ok hp
  obtain ⟨_, hfinal, hlonger⟩ := ofStatements_eq_ok hq
  have hfits := (represents_of_ofStatements hp).fits
  have hlarger := (represents_of_ofStatements hq).fits
  have hextends := hfits.extends_append hlarger
  refine ⟨?_, fun a ha => ?_, hextends, fun n hn => ?_, fun name n hn hnew => ?_⟩
  · rw [hlength, hlonger, List.length_append]
    exact Nat.le_add_right _ _
  · exact Image.read_append hextends himage hfinal (hlength ▸ ha)
  · exact hfits.labelAt?_append hlarger (hlength ▸ hn)
  · exact hlength ▸ hfits.length_le_of_new hlarger hn hnew

/-- Lines that are appended to a source change nothing of the program before them. -/
theorem assemble_append_lines {a b : String} {p q : Program} (hp : assemble a = .ok p)
    (hq : assemble (a ++ "\n" ++ b) = .ok q) : q.Continues p := by
  obtain ⟨ss, ha, hss⟩ := exists_parse_of_assemble hp
  obtain ⟨us, h, hus⟩ := exists_parse_of_assemble hq
  obtain ⟨ts, rfl⟩ := Statement.exists_parse_append ha h
  exact ofStatements_append hss hus

/-- A source that ends within a comment, and lines that use its labels and labels of their own. -/
theorem assemble_append_lines_comment :
    let a := "top IN\n STA x\n BRA top\nx DAT x ; here"
    let b := "y LDA x\n\n BR y"
    let p : Program :=
      ⟨Image.ofList [901, 303, 600, 3], SymbolTable.ofList [("top", 0), ("x", 3)], 4⟩
    let q : Program :=
      ⟨Image.ofList [901, 303, 600, 3, 503, 604],
        SymbolTable.ofList [("top", 0), ("x", 3), ("y", 4)], 6⟩
    (assemble a = .ok p ∧ assemble (a ++ "\n" ++ b) = .ok q) ∧ q.Continues p := by
  intro a b p q
  have hp : assemble a = .ok p := by decide +kernel
  have hq : assemble (a ++ "\n" ++ b) = .ok q := by decide +kernel
  exact ⟨⟨hp, hq⟩, assemble_append_lines hp hq⟩

end Program

end Mailbox
