import Mailbox.Listing
import Mailbox.Proofs.Assembly.Assembling
import Mailbox.Proofs.Assembly.LineText
set_option autoImplicit false

/-!
# Disassembly

The assembly text of an image has one line for each mailbox.  Main statement: this text is a program
of 100 statements without labels, and its image is the one that was written down, but for the words
that halt: they are written without their last digits, so they all come back as zero.

Normative source: SPEC_FULL.md, section A6.6.
-/

namespace Mailbox

/-- The assembly text of an image, one line a mailbox.  The last line may have a newline at its end
like the others, or none. -/
def Image.disassembly (image : Image) (ended : Bool) : String :=
  "\n".intercalate
    (((List.finRange 100).map fun a => Listing.wordText (image.read a)) ++ if ended then [""] else [])

/-! ## Instructions and their words -/

namespace Instruction

/-- The mnemonic that the text of an instruction starts with. -/
def mnemonic : Instruction → Mnemonic
  | .halt => .hlt
  | .add _ => .add
  | .sub _ => .sub
  | .store _ => .sto
  | .load _ => .lda
  | .branch _ => .br
  | .branchZero _ => .brz
  | .branchPositive _ => .brp
  | .input => .inp
  | .output => .out
  | .inputChar => .ina
  | .outputChar => .ota

theorem name_mnemonic (i : Instruction) : i.mnemonic.name = i.name := by
  cases i <;> rfl

/-- What the digits of an instruction say about its base word. -/
theorem ofDigits?_cases {k : Nat} {a : Address} {i : Instruction} (h : ofDigits? k a = some i) :
    (k = 0 ∧ i = .halt) ∨
      (1 ≤ k ∧ i.address? = none ∧ i.mnemonic.arity = .forbidden ∧
        ∃ base, i.mnemonic.base? = some base ∧ base.val = 100 * k + a.val) ∨
      (1 ≤ k ∧ i.address? = some a ∧ i.mnemonic.arity = .required ∧
        ∃ base, i.mnemonic.base? = some base ∧ base.val = 100 * k) := by
  unfold ofDigits? at h
  split at h
  case h_1 => exact Or.inl ⟨rfl, (Option.some.inj h).symm⟩
  case h_9 =>
    -- Operations without an address: the last two digits tell them apart.
    split at h
    case h_5 => exact absurd h (by simp)
    all_goals
      rename_i ha
      obtain rfl := Option.some.inj h
      exact Or.inr (Or.inl ⟨by decide, rfl, rfl, _, rfl, by rw [ha]; decide⟩)
  case h_10 => exact absurd h (by simp)
  all_goals
    obtain rfl := Option.some.inj h
    exact Or.inr (Or.inr ⟨by decide, rfl, rfl, _, rfl, by decide⟩)

/-- A word that is an instruction halts, or it is the base word of the operation, with the address
added if there is one. -/
theorem decode?_cases {w : Word} {i : Instruction} (h : decode? w = some i) :
    (i = .halt ∧ 0 ≤ w.val ∧ w.val ≤ 99) ∨
      (100 ≤ w.val ∧ i.address? = none ∧ i.mnemonic.arity = .forbidden ∧
        i.mnemonic.base? = some w) ∨
      ∃ a base, 100 ≤ base.val ∧ base.val ≤ 900 ∧ i.address? = some a ∧
        i.mnemonic.arity = .required ∧ i.mnemonic.base? = some base ∧ w.val = base.val + a.val := by
  unfold decode? at h
  split at h
  · rename_i hrange
    rcases ofDigits?_cases h with
      ⟨hk, hi⟩ | ⟨hk, ha, harity, base, hbase, hval⟩ | ⟨hk, ha, harity, base, hbase, hval⟩
    · exact Or.inl ⟨hi, by omega, by omega⟩
    · obtain rfl : base = w := Word.ext (by simp only at hval; omega)
      exact Or.inr (Or.inl ⟨by omega, ha, harity, hbase⟩)
    · refine Or.inr (Or.inr ⟨_, base, by omega, by omega, ha, harity, hbase, ?_⟩)
      simp only
      omega
  · exact absurd h (by simp)

end Instruction

/-! ## Spelling words -/

/-- A mnemonic and its literal, if it has one, spell a word as the assembly text of an image
does. -/
inductive Mnemonic.Spells : Mnemonic → Option Word → Word → Prop where
  | halt {w : Word} (hw : 0 ≤ w.val ∧ w.val ≤ 99) : Spells .hlt none w
  | plain {m : Mnemonic} {w : Word} (ha : m.arity = .forbidden) (hb : m.base? = some w)
      (hw : 100 ≤ w.val) : Spells m none w
  | addressed {m : Mnemonic} {base value w : Word} {a : Address} (ha : m.arity = .required)
      (hb : m.base? = some base) (hbase : 100 ≤ base.val) (hv : value.val = a.val)
      (hw : w.val = base.val + a.val) : Spells m (some value) w
  | data {w : Word} (hw : Instruction.decode? w = none) : Spells .dat (some w) w

/-- A statement without a label spells a word. -/
inductive Statement.Spells (s : Statement) (w : Word) : Prop where
  | alone (hl : s.label = none) (ho : s.operand = none) (h : s.mnemonic.Spells none w)
  | literal {value : Word} {span : Span} (hl : s.label = none)
      (ho : s.operand = some (.literal value span)) (h : s.mnemonic.Spells (some value) w)

namespace Grammar

theorem isNumber_zeroPad (width n : Nat) : IsNumber (Text.zeroPad width n).toList n := by
  have hzeros : ∀ k, Nat.ofDigitChars 10 (List.replicate k '0') 0 = 0 := by
    intro k
    induction k with
    | zero => rfl
    | succ k ih =>
      rw [List.replicate_succ, Nat.ofDigitChars_cons]
      exact ih
  have htext : (Text.zeroPad width n).toList =
      List.replicate (width - (toString n).length) '0' ++ (toString n).toList := by
    have hsign : ¬ (n : Int) < 0 := by omega
    simp [Text.zeroPad, Text.fill, hsign]
  rw [htext]
  refine ⟨by simp, ?_, ?_⟩
  · intro c hc
    rcases List.mem_append.1 hc with hc | hc
    · rw [List.eq_of_mem_replicate hc]
      rfl
    · exact List.all_eq_true.1 (Text.all_isDigit_toString n) c hc
  · unfold Text.digitsValue
    rw [Nat.ofDigitChars_append, hzeros]
    exact Text.digitsValue_toString n

/-- The assembly text of a word is a mnemonic that spells it, with a literal or without. -/
theorem toList_wordText_cases (w : Word) :
    (∃ m, Mnemonic.Spells m none w ∧ (Listing.wordText w).toList = m.name.toList) ∨
      ∃ m cs value, Mnemonic.Spells m (some value) w ∧ IsLiteral cs value ∧
        (Listing.wordText w).toList = m.name.toList ++ ' ' :: cs := by
  cases hw : Instruction.decode? w with
  | none =>
    refine Or.inr ⟨.dat, w.decimal.toList, w, .data hw, isLiteral_decimal w, ?_⟩
    simp [Listing.wordText, hw, Mnemonic.name]
  | some i =>
    have htext : Listing.wordText w = i.text := by simp [Listing.wordText, hw]
    rw [htext]
    rcases Instruction.decode?_cases hw with
      ⟨rfl, hrange⟩ | ⟨hval, ha, harity, hbase⟩ | ⟨a, base, hbase, _, ha, harity, hb, hval⟩
    · exact Or.inl ⟨.hlt, .halt hrange, rfl⟩
    · refine Or.inl ⟨i.mnemonic, .plain harity hbase hval, ?_⟩
      simp [Instruction.text, ha, Instruction.name_mnemonic]
    · have haddress : (Word.clamp a.val).val = a.val :=
        Word.val_clamp_of_fits (by omega) (by omega)
      refine Or.inr ⟨i.mnemonic, (Text.zeroPad 2 a.val).toList, Word.clamp a.val,
        .addressed harity hb hbase haddress hval, .unsigned (isNumber_zeroPad 2 a.val) haddress, ?_⟩
      simp [Instruction.text, ha, Instruction.name_mnemonic]

/-- The line of a word has a statement that spells the word. -/
theorem exists_lineForm_wordText (w : Word) (number offset : Nat) : ∃ s,
    LineForm number (SourceLine.wordsOf (place offset (Listing.wordText w).toList)) s ∧
      s.Spells w := by
  rcases toList_wordText_cases w with ⟨m, hspells, htext⟩ | ⟨m, cs, value, hspells, hcs, htext⟩
  · have hm := isMnemonic_name m
    rw [htext, SourceLine.wordsOf_place hm.1.ne_nil hm.1.isWordChar]
    exact ⟨_, .unlabelled hm .absent, .alone rfl rfl hspells⟩
  · have hm := isMnemonic_name m
    rw [htext, SourceLine.wordsOf_place_pair hm.1.ne_nil hcs.ne_nil hm.1.isWordChar hcs.isWordChar]
    exact ⟨_, .unlabelled hm (.literal hcs), .literal rfl rfl hspells⟩

theorem newline_not_mem_wordText (w : Word) : '\n' ∉ (Listing.wordText w).toList := by
  rcases toList_wordText_cases w with ⟨m, _, htext⟩ | ⟨m, cs, value, _, hcs, htext⟩
  · rw [htext]
    exact newline_not_mem_of_isWordChar (isMnemonic_name m).1.isWordChar
  · rw [htext]
    exact newline_not_mem_pair (isMnemonic_name m).1.isWordChar hcs.isWordChar

end Grammar

/-! ## Reading the text -/

namespace SourceLine

theorem filled_eq_nil_of_isOf {lines : List SourceLine} {blank : List (List Char)}
    (hblank : ∀ cs ∈ blank, cs = []) (h : List.Forall₂ IsOf lines blank) : filled lines = [] := by
  induction h with
  | nil => rfl
  | @cons line cs lines blank hline _ ih =>
    obtain ⟨number, offset, rfl⟩ := hline
    obtain rfl := hblank cs List.mem_cons_self
    rw [filled, List.filter_cons_of_neg (by simp)]
    exact ih fun ds hds => hblank ds (List.mem_cons_of_mem _ hds)

/-- Lines with the texts of words, and blank lines behind them, are read as statements that spell
the words. -/
theorem exists_reads_of_isOf {lines : List SourceLine} {ws : List Word} {blank : List (List Char)}
    (hblank : ∀ cs ∈ blank, cs = [])
    (h : List.Forall₂ IsOf lines ((ws.map fun w => (Listing.wordText w).toList) ++ blank)) :
    ∃ ss, List.Forall₂ Reads (filled lines) ss ∧ List.Forall₂ Statement.Spells ss ws := by
  induction ws generalizing lines with
  | nil =>
    rw [filled_eq_nil_of_isOf hblank h]
    exact ⟨[], .nil, .nil⟩
  | cons w ws ih =>
    cases h with
    | cons hline hrest =>
      obtain ⟨ss, hreads, hspells⟩ := ih hrest
      obtain ⟨number, offset, rfl⟩ := hline
      obtain ⟨s, hform, hs⟩ := Grammar.exists_lineForm_wordText w number offset
      have hline : Reads ⟨number, wordsOf (place offset (Listing.wordText w).toList)⟩ s := hform
      refine ⟨s :: ss, ?_, .cons hs hspells⟩
      rw [hline.filled_cons]
      exact .cons hline hreads

end SourceLine

namespace Image

/-- The assembly text of an image is read as statements that spell its words. -/
theorem exists_parse_disassembly (image : Image) (ended : Bool) : ∃ ss,
    Statement.parse (image.disassembly ended) = .ok ss ∧
      List.Forall₂ Statement.Spells ss ((List.finRange 100).map image.read) := by
  have hbreak : ∀ l ∈ ((List.finRange 100).map fun a => Listing.wordText (image.read a)) ++
      (if ended then [""] else []), '\n' ∉ l.toList := by
    intro l hl
    rcases List.mem_append.1 hl with hl | hl
    · obtain ⟨a, _, rfl⟩ := List.mem_map.1 hl
      exact Grammar.newline_not_mem_wordText _
    · cases ended <;> simp_all
  have hblank : ∀ cs ∈ (if ended then [""] else []).map String.toList, cs = [] := by
    cases ended <;> simp
  have hlines := SourceLine.forall₂_isOf_all (by simp) hbreak
  have hwords : (List.finRange 100).map (String.toList ∘ fun a => Listing.wordText (image.read a)) =
      ((List.finRange 100).map image.read).map fun w => (Listing.wordText w).toList := by
    rw [List.map_map]
    rfl
  rw [List.map_append, List.map_map, hwords] at hlines
  obtain ⟨ss, hreads, hspells⟩ := SourceLine.exists_reads_of_isOf hblank hlines
  exact ⟨ss, (Statement.parse_eq_ok_iff _ ss).2 hreads, hspells⟩

end Image

/-! ## Assembling the text -/

namespace Statement

variable {s : Statement} {w : Word} {table : SymbolTable}

theorem Spells.label_eq_none (h : s.Spells w) : s.label = none := by
  cases h with
  | alone hl _ _ => exact hl
  | literal hl _ _ => exact hl

theorem Spells.undefined?_eq_none (h : s.Spells w) : table.undefined? s = none := by
  cases h with
  | alone _ ho _ => simp only [SymbolTable.undefined?, ho]
  | literal _ ho _ => simp only [SymbolTable.undefined?, ho]

theorem encode_of_no_operand {base : Word} (ho : s.operand = none)
    (ha : s.mnemonic.arity = .forbidden) (hb : s.mnemonic.base? = some base) :
    s.encode table = .ok base := by
  simp [encode, operandValue, arityError?, ho, ha, hb, bind, Except.bind]

theorem encode_of_literal {base value : Word} {span : Span}
    (ho : s.operand = some (.literal value span)) (ha : s.mnemonic.arity = .required)
    (hb : s.mnemonic.base? = some base) (hv : 0 ≤ value.val ∧ value.val < 100) :
    s.encode table = .ok (base + value) := by
  simp [encode, operandValue, arityError?, ho, ha, hb, hv, bind, Except.bind]

theorem encode_of_data {value : Word} {span : Span}
    (ho : s.operand = some (.literal value span)) (hm : s.mnemonic = .dat) :
    s.encode table = .ok value := by
  simp [encode, operandValue, arityError?, ho, hm, Mnemonic.arity, Mnemonic.base?, bind,
    Except.bind]

/-- A statement that spells a word is encoded as this word, or as zero if the word halts. -/
theorem Spells.encode_eq (h : s.Spells w) (table : SymbolTable) :
    s.encode table = .ok (if 1 ≤ w.val ∧ w.val ≤ 99 then 0 else w) := by
  have large : 100 ≤ w.val → ¬ (1 ≤ w.val ∧ w.val ≤ 99) := fun hge => by omega
  cases h with
  | alone _ ho h =>
    generalize hm : s.mnemonic = m at h
    cases h with
    | halt hw =>
      have hzero : (if 1 ≤ w.val ∧ w.val ≤ 99 then 0 else w) = 0 := by
        split
        · rfl
        · exact Word.ext (by rw [Word.val_zero]; omega)
      rw [hzero]
      exact encode_of_no_operand ho (by rw [hm]; rfl) (by rw [hm]; rfl)
    | plain ha hb hw =>
      rw [if_neg (large hw)]
      exact encode_of_no_operand ho (by rw [hm]; exact ha) (by rw [hm]; exact hb)
  | @literal value _ _ ho h =>
    generalize hm : s.mnemonic = m at h
    cases h with
    | @addressed _ base _ _ a ha hb hbase hv hw =>
      have hsum : base + value = w := by
        apply Word.ext
        rw [Word.val_add, hv, ← hw]
        exact Word.val_clamp_of_fits w.lower w.upper
      rw [if_neg (large (by omega)), ← hsum]
      exact encode_of_literal ho (by rw [hm]; exact ha) (by rw [hm]; exact hb) (by omega)
    | data hw =>
      have hnot : ¬ (1 ≤ w.val ∧ w.val ≤ 99) := by
        intro hrange
        have hhalt : Instruction.decode? w = some .halt :=
          Instruction.decode?_of_val (k := 0) (a := ⟨w.val.toNat, by omega⟩) (by decide)
            (by simp only; omega)
        exact absurd (hw.symm.trans hhalt) (by simp)
      rw [if_neg hnot]
      exact encode_of_data ho hm

end Statement

namespace Image

variable {ss : List Statement}

/-- Statements that spell words have an image. -/
theorem exists_ofStatements (table : SymbolTable) (hlen : ss.length ≤ 100)
    (h : ∀ s ∈ ss, ∃ w, s.Spells w) : ∃ image, ofStatements table ss = .ok image := by
  cases himage : ofStatements table ss with
  | ok image => exact ⟨image, rfl⟩
  | error e =>
    obtain ⟨s, hs, he⟩ := List.exists_of_findSome?_eq_some (encodeFrom_eq_error (by omega) himage)
    obtain ⟨w, hw⟩ := h s hs
    rw [Statement.encodeError?, hw.encode_eq table] at he
    exact absurd he (by simp)

/-- The assembly text of an image is a program whose image is the same except that words which halt
come back as zero. -/
theorem assemble_disassembly (image : Image) (ended : Bool) : ∃ p,
    Program.assemble (image.disassembly ended) = .ok p ∧ p.length = 100 ∧ p.symbols = .empty ∧
      ∀ a, p.image.read a =
        if 1 ≤ (image.read a).val ∧ (image.read a).val ≤ 99 then 0 else image.read a := by
  obtain ⟨ss, hparse, hspells⟩ := exists_parse_disassembly image ended
  have hlen : ss.length = 100 := by simpa using hspells.length_eq
  have hget : ∀ (i : Nat) (hi : i < 100), ss[i].Spells (image.read ⟨i, hi⟩) := by
    intro i hi
    have hi' : i < ((List.finRange 100).map image.read).length := by simpa using hi
    have hspell := hspells.get (hlen ▸ hi) hi'
    rw [List.get_eq_getElem, List.get_eq_getElem, List.getElem_map, List.getElem_finRange] at hspell
    exact hspell
  have hss : ∀ s ∈ ss, ∃ w, s.Spells w := by
    intro s hs
    obtain ⟨i, hi, rfl⟩ := List.getElem_of_mem hs
    exact ⟨_, hget i (hlen ▸ hi)⟩
  have hlabels : ∀ s ∈ ss, s.label = none := fun s hs => (hss s hs).elim fun _ h => h.label_eq_none
  have hundefined : ss.findSome? SymbolTable.empty.undefined? = none :=
    List.findSome?_eq_none_iff.2 fun s hs => (hss s hs).elim fun _ h => h.undefined?_eq_none
  have hsymbols : SymbolTable.ofStatements ss = .ok .empty := by
    simp only [SymbolTable.ofStatements, bind, Except.bind, hundefined,
      SymbolTable.define_of_no_labels hlabels (show 0 + ss.length ≤ 100 by omega)]
  obtain ⟨final, hfinal⟩ := exists_ofStatements .empty (by omega) hss
  refine ⟨⟨final, .empty, ss.length⟩, ?_, hlen, rfl, fun a => ?_⟩
  · rw [Program.assemble_of_parse_eq_ok hparse]
    simp only [Program.ofStatements, bind, Except.bind, hsymbols, hfinal]
    rfl
  · obtain ⟨b, hb, hencode⟩ := encodeFrom_writes hfinal
      (List.getElem?_eq_getElem (show a.val < ss.length by omega))
    obtain rfl : b = a := Fin.ext (by omega)
    rw [(hget b.val b.isLt).encode_eq .empty] at hencode
    exact (Except.ok.inj hencode).symm

end Image

end Mailbox
