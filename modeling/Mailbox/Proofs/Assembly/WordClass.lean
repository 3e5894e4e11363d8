import Mailbox.Assembly.Statement
set_option autoImplicit false

/-!
# Classes of words

What a word can be, said of its characters alone: a literal, an identifier, a mnemonic or a name.
Main statements: these classes are what `Content.ofWord`, `Mnemonic.ofName?` and `isLabelName`
find.
-/

namespace Mailbox.Grammar

/-- A character that an identifier may start with. -/
def IsInitial (c : Char) : Prop := c.isAlpha ∨ c = '_'

/-- A character that an identifier may go on with. -/
def IsInner (c : Char) : Prop := c.isAlphanum ∨ c = '_'

/-- One or more digits that write a number. -/
def IsNumber (cs : List Char) (n : Nat) : Prop :=
  cs ≠ [] ∧ (∀ c ∈ cs, c.isDigit) ∧ Text.digitsValue cs = n

/-- A number, after a sign or not, whose value is that of a machine word. -/
inductive IsLiteral : List Char → Word → Prop
  | unsigned {cs : List Char} {n : Nat} {value : Word} :
      IsNumber cs n → value.val = n → IsLiteral cs value
  | plus {cs : List Char} {n : Nat} {value : Word} :
      IsNumber cs n → value.val = n → IsLiteral ('+' :: cs) value
  | minus {cs : List Char} {n : Nat} {value : Word} :
      IsNumber cs n → value.val = -n → IsLiteral ('-' :: cs) value

/-- A number below `2 ^ 64`, after a plus sign or not. -/
inductive IsCount : List Char → Nat → Prop
  | unsigned {cs : List Char} {n : Nat} :
      IsNumber cs n → n < 18446744073709551616 → IsCount cs n
  | plus {cs : List Char} {n : Nat} :
      IsNumber cs n → n < 18446744073709551616 → IsCount ('+' :: cs) n

/-- A letter or underscore, followed by letters, digits and underscores. -/
def IsIdentifier (cs : List Char) : Prop :=
  ∃ c ds, cs = c :: ds ∧ IsInitial c ∧ ∀ d ∈ ds, IsInner d

/-- An identifier that is the name of a mnemonic but for the case of its letters. -/
def IsMnemonic (cs : List Char) (m : Mnemonic) : Prop :=
  IsIdentifier cs ∧ cs.map Char.toUpper = m.name.toList

/-- An identifier that is no mnemonic. -/
def IsName (cs : List Char) : Prop :=
  IsIdentifier cs ∧ ∀ m, ¬ IsMnemonic cs m

/-- What a word says: a literal its value, an identifier its name, and any other word its text. -/
inductive Says : List Char → Content → Prop
  | literal {cs : List Char} {value : Word} : IsLiteral cs value → Says cs (.literal value)
  | identifier {cs : List Char} : IsIdentifier cs → Says cs (.identifier (String.ofList cs))
  | malformed {cs : List Char} : (∀ value, ¬ IsLiteral cs value) → ¬ IsIdentifier cs →
      Says cs (.malformed (String.ofList cs))

/-! ## Characters -/

theorem isInner_iff (c : Char) : IsInner c ↔ isIdentifierChar c := by
  simp [IsInner, isIdentifierChar]

theorem IsInitial.isInner {c : Char} (h : IsInitial c) : IsInner c := by
  rcases h with h | h
  · exact Or.inl (by simp [Char.isAlphanum, h])
  · exact Or.inr h

theorem not_isDigit_of_isAlpha {c : Char} (h : c.isAlpha) : c.isDigit = false := by
  have hcode : 65 ≤ c.val := by
    rcases Bool.or_eq_true_iff.1 h with hupper | hlower
    · exact (of_decide_eq_true hupper).1
    · have ha : 97 ≤ c.val := of_decide_eq_true (Bool.and_eq_true_iff.1 hlower).1
      exact UInt32.le_trans (by decide) ha
  refine Bool.eq_false_iff.2 fun hd => ?_
  have hdigit : c.val ≤ 57 := of_decide_eq_true (Bool.and_eq_true_iff.1 hd).2
  exact absurd (UInt32.le_trans hcode hdigit) (by decide)

/-- No literal starts the way an identifier does. -/
theorem IsInitial.not_startsNumeral {c : Char} (h : IsInitial c) :
    Content.startsNumeral c = false := by
  rcases h with h | rfl
  · have minus : c ≠ '-' := by rintro rfl; exact absurd h (by decide)
    have plus : c ≠ '+' := by rintro rfl; exact absurd h (by decide)
    simp [Content.startsNumeral, not_isDigit_of_isAlpha h, minus, plus]
  · decide

/-- An inner character that starts no literal may start an identifier. -/
theorem IsInner.isInitial {c : Char} (h : IsInner c) (hn : Content.startsNumeral c = false) :
    IsInitial c := by
  simp only [Content.startsNumeral, Bool.or_eq_false_iff] at hn
  rcases h with h | h
  · simp only [Char.isAlphanum, hn.1.1, Bool.or_false] at h
    exact Or.inl h
  · exact Or.inr h

/-! ## Literals -/

theorem IsNumber.all_isDigit {cs : List Char} {n : Nat} (h : IsNumber cs n) :
    cs.all Char.isDigit :=
  List.all_eq_true.2 h.2.1

theorem IsNumber.splitSign_eq {cs : List Char} {n : Nat} (h : IsNumber cs n) :
    Text.splitSign cs = (false, cs) := by
  obtain ⟨hne, hd, _⟩ := h
  cases cs with
  | nil => exact absurd rfl hne
  | cons c cs => exact Text.splitSign_of_isDigit (hd c List.mem_cons_self)

theorem splitSign_cases {cs ds : List Char} {negative : Bool}
    (h : Text.splitSign cs = (negative, ds)) :
    (negative = true ∧ cs = '-' :: ds) ∨ (negative = false ∧ cs = '+' :: ds) ∨
      (negative = false ∧ cs = ds) := by
  unfold Text.splitSign at h
  split at h
  · obtain ⟨rfl, rfl⟩ := Prod.mk.inj h
    exact Or.inl ⟨rfl, rfl⟩
  · obtain ⟨rfl, rfl⟩ := Prod.mk.inj h
    exact Or.inr (Or.inl ⟨rfl, rfl⟩)
  · obtain ⟨rfl, rfl⟩ := Prod.mk.inj h
    exact Or.inr (Or.inr ⟨rfl, rfl⟩)

/-- Literals are the numerals that can be read. -/
theorem readWord_eq_ok_iff_isLiteral (cs : List Char) (value : Word) :
    Text.readWord cs = .ok value ↔ IsLiteral cs value := by
  constructor
  · intro h
    cases hs : Text.splitSign cs with
    | mk negative ds =>
      obtain ⟨hne, hd, hv⟩ := (Text.readWord_eq_ok_iff hs value).1 h
      have hnumber : IsNumber ds (Text.digitsValue ds) := ⟨hne, List.all_eq_true.1 hd, rfl⟩
      rcases splitSign_cases hs with ⟨rfl, rfl⟩ | ⟨rfl, rfl⟩ | ⟨rfl, rfl⟩
      · exact .minus hnumber hv
      · exact .plus hnumber hv
      · exact .unsigned hnumber hv
  · intro h
    cases h with
    | unsigned hn hv =>
      rw [Text.readWord_eq_ok_iff hn.splitSign_eq]
      exact ⟨hn.1, hn.all_isDigit, by rw [hv, ← hn.2.2]; rfl⟩
    | plus hn hv =>
      rw [Text.readWord_eq_ok_iff rfl]
      exact ⟨hn.1, hn.all_isDigit, by rw [hv, ← hn.2.2]; rfl⟩
    | minus hn hv =>
      rw [Text.readWord_eq_ok_iff rfl]
      exact ⟨hn.1, hn.all_isDigit, by rw [hv, ← hn.2.2]; rfl⟩

/-- A literal starts with a digit or a sign. -/
theorem IsLiteral.startsNumeral {cs : List Char} {value : Word} (h : IsLiteral cs value) :
    cs.head?.any Content.startsNumeral := by
  cases h with
  | unsigned hn hv =>
    obtain ⟨hne, hd, _⟩ := hn
    cases cs with
    | nil => exact absurd rfl hne
    | cons c cs => simp [Content.startsNumeral, hd c List.mem_cons_self]
  | plus hn hv => rfl
  | minus hn hv => rfl

theorem isLiteral_decimal (w : Word) : IsLiteral w.decimal.toList w :=
  (readWord_eq_ok_iff_isLiteral _ w).1 (Text.readWord_decimal w)

/-! ## Counts -/

/-- The digits that are left of a numeral of a count without its sign. -/
theorem digitsBelow?_eq_some_iff {cs : List Char} {n : Nat} :
    (if cs.isEmpty || !cs.all Char.isDigit then none
      else Text.digitsBelow? 18446744073709551616 cs) = some n ↔
        IsNumber cs n ∧ n < 18446744073709551616 := by
  rw [Text.digitsBelow?_eq (by decide)]
  constructor
  · intro h
    split at h
    · cases h
    · rename_i hdigits
      split at h
      · rename_i hsmall
        obtain rfl := Option.some.inj h
        simp only [Bool.or_eq_true, List.isEmpty_iff, Bool.not_eq_true', not_or,
          Bool.not_eq_false] at hdigits
        exact ⟨⟨hdigits.1, List.all_eq_true.1 hdigits.2, rfl⟩, hsmall⟩
      · cases h
  · rintro ⟨⟨hne, hd, rfl⟩, hsmall⟩
    have hdigits : ¬ (cs.isEmpty || !cs.all Char.isDigit) = true := by
      simpa using ⟨hne, hd⟩
    rw [if_neg hdigits, if_pos hsmall]

/-- Counts are the numerals that can be read as one. -/
theorem readCount?_eq_some_iff_isCount (cs : List Char) (n : Nat) :
    Text.readCount? cs = some n ↔ IsCount cs n := by
  unfold Text.readCount?
  rw [digitsBelow?_eq_some_iff]
  split
  · rename_i ds
    constructor
    · exact fun h => .plus h.1 h.2
    · intro h
      cases h with
      | plus hn hsmall => exact ⟨hn, hsmall⟩
      | unsigned hn hsmall => exact absurd (hn.2.1 '+' List.mem_cons_self) (by decide)
  · rename_i hplus
    constructor
    · exact fun h => .unsigned h.1 h.2
    · intro h
      cases h with
      | unsigned hn hsmall => exact ⟨hn, hsmall⟩
      | plus hn hsmall => exact absurd rfl (hplus _)

/-- A count starts with a digit or a plus sign. -/
theorem IsCount.exists_cons {cs : List Char} {n : Nat} (h : IsCount cs n) :
    ∃ c ds, cs = c :: ds ∧ (c.isDigit ∨ c = '+') := by
  cases h with
  | unsigned hn _ =>
    obtain ⟨hne, hd, _⟩ := hn
    obtain ⟨c, ds, rfl⟩ := List.exists_cons_of_ne_nil hne
    exact ⟨c, ds, rfl, .inl (hd c List.mem_cons_self)⟩
  | plus hn _ => exact ⟨'+', _, rfl, .inr rfl⟩

/-! ## Contents -/

theorem ofWord_of_isLiteral {cs : List Char} {value : Word} (h : IsLiteral cs value) :
    Content.ofWord cs = .literal value := by
  have hread := (readWord_eq_ok_iff_isLiteral cs value).2 h
  unfold Content.ofWord
  rw [if_pos h.startsNumeral, hread]

theorem IsIdentifier.all_isIdentifierChar {cs : List Char} (h : IsIdentifier cs) :
    cs.all isIdentifierChar := by
  obtain ⟨c, ds, rfl, hc, hds⟩ := h
  rw [List.all_cons, Bool.and_eq_true, List.all_eq_true]
  exact ⟨(isInner_iff c).1 hc.isInner, fun d hd => (isInner_iff d).1 (hds d hd)⟩

theorem IsIdentifier.not_startsNumeral {cs : List Char} (h : IsIdentifier cs) :
    cs.head?.any Content.startsNumeral = false := by
  obtain ⟨c, ds, rfl, hc, _⟩ := h
  exact hc.not_startsNumeral

/-- Identifiers are the words of identifier characters that do not start as a literal does. -/
theorem isIdentifier_of_all {cs : List Char} (hne : cs ≠ [])
    (hn : cs.head?.any Content.startsNumeral = false) (h : cs.all isIdentifierChar) :
    IsIdentifier cs := by
  cases cs with
  | nil => exact absurd rfl hne
  | cons c ds =>
    rw [List.all_cons, Bool.and_eq_true, List.all_eq_true] at h
    exact ⟨c, ds, rfl, ((isInner_iff c).2 h.1).isInitial hn, fun d hd => (isInner_iff d).2 (h.2 d hd)⟩

theorem ofWord_of_isIdentifier {cs : List Char} (h : IsIdentifier cs) :
    Content.ofWord cs = .identifier (String.ofList cs) := by
  unfold Content.ofWord
  rw [if_neg (by simp [h.not_startsNumeral]), if_pos h.all_isIdentifierChar]

theorem ofWord_of_neither {cs : List Char} (hne : cs ≠ []) (hl : ∀ value, ¬ IsLiteral cs value)
    (hi : ¬ IsIdentifier cs) : Content.ofWord cs = .malformed (String.ofList cs) := by
  unfold Content.ofWord
  split
  · split
    · rename_i value hread
      exact absurd ((readWord_eq_ok_iff_isLiteral cs value).1 hread) (hl value)
    · rfl
  · rename_i hn
    split
    · rename_i hall
      exact absurd (isIdentifier_of_all hne (by simpa using hn) hall) hi
    · rfl

/-- The content of a word is what the word says. -/
theorem Says.ofWord_eq {cs : List Char} {content : Content} (h : Says cs content) (hne : cs ≠ []) :
    Content.ofWord cs = content := by
  cases h with
  | literal hl => exact ofWord_of_isLiteral hl
  | identifier hi => exact ofWord_of_isIdentifier hi
  | malformed hl hi => exact ofWord_of_neither hne hl hi

/-- Every word says something. -/
theorem exists_says (cs : List Char) : ∃ content, Says cs content := by
  by_cases hi : IsIdentifier cs
  · exact ⟨_, .identifier hi⟩
  · by_cases hl : ∃ value, IsLiteral cs value
    · obtain ⟨value, hl⟩ := hl
      exact ⟨_, .literal hl⟩
    · exact ⟨_, .malformed (fun value h => hl ⟨value, h⟩) hi⟩

/-- No identifier is a literal. -/
theorem IsIdentifier.not_isLiteral {cs : List Char} (h : IsIdentifier cs) (value : Word) :
    ¬ IsLiteral cs value := by
  intro hl
  have hstart := hl.startsNumeral
  rw [h.not_startsNumeral] at hstart
  exact absurd hstart (by decide)

/-! ## Mnemonics and names -/

theorem name_injective {m k : Mnemonic} (h : m.name.toList = k.name.toList) : m = k := by
  have hname : m.name = k.name := String.toList_injective h
  have hm := Mnemonic.ofName?_name m
  rw [hname, Mnemonic.ofName?_name] at hm
  exact (Option.some.inj hm).symm

theorem ofName?_eq_some_iff (s : String) (m : Mnemonic) :
    Mnemonic.ofName? s = some m ↔ s.toList.map Char.toUpper = m.name.toList := by
  constructor
  · intro h
    have hfound := List.find?_some h
    simpa using (of_decide_eq_true hfound).symm
  · intro h
    unfold Mnemonic.ofName?
    simp only [h]
    cases hf : Mnemonic.all.find? fun k => decide (k.name.toList = m.name.toList) with
    | none =>
      have hnone := List.find?_eq_none.1 hf m (Mnemonic.mem_all m)
      exact absurd (decide_eq_true rfl) hnone
    | some k =>
      have hfound := List.find?_some hf
      rw [name_injective (of_decide_eq_true hfound)]

theorem isMnemonic_iff {cs : List Char} (h : IsIdentifier cs) (m : Mnemonic) :
    IsMnemonic cs m ↔ Mnemonic.ofName? (String.ofList cs) = some m := by
  rw [ofName?_eq_some_iff, String.toList_ofList]
  exact ⟨fun hm => hm.2, fun hm => ⟨h, hm⟩⟩

theorem isAlpha_of_isUpper_toUpper {c : Char} (h : c.toUpper.isUpper) : c.isAlpha := by
  by_cases hlower : 'a'.val ≤ c.val ∧ c.val ≤ 'z'.val
  · have hc : c.isLower :=
      Bool.and_eq_true_iff.2 ⟨decide_eq_true hlower.1, decide_eq_true hlower.2⟩
    exact Bool.or_eq_true_iff.2 (Or.inr hc)
  · have hsame : c.toUpper = c := dif_neg hlower
    rw [hsame] at h
    exact Bool.or_eq_true_iff.2 (Or.inl h)

/-- A word that is the name of a mnemonic but for the case of its letters is an identifier. -/
theorem isMnemonic_of_toUpper {cs : List Char} {m : Mnemonic}
    (h : cs.map Char.toUpper = m.name.toList) : IsMnemonic cs m := by
  have hcapitals : ∀ c ∈ m.name.toList, c.isUpper :=
    List.all_eq_true.1 (by cases m <;> decide)
  have hletters : ∀ c ∈ cs, IsInitial c := fun c hc =>
    Or.inl (isAlpha_of_isUpper_toUpper (hcapitals _ (h ▸ List.mem_map_of_mem hc)))
  refine ⟨?_, h⟩
  cases cs with
  | nil => exact absurd h (by cases m <;> decide)
  | cons c ds =>
    exact ⟨c, ds, rfl, hletters c List.mem_cons_self, fun d hd =>
      (hletters d (List.mem_cons_of_mem c hd)).isInner⟩

theorem isMnemonic_name (m : Mnemonic) : IsMnemonic m.name.toList m :=
  isMnemonic_of_toUpper (by cases m <;> decide)

theorem isName_iff {cs : List Char} (h : IsIdentifier cs) :
    IsName cs ↔ Mnemonic.ofName? (String.ofList cs) = none := by
  rw [Option.eq_none_iff_forall_ne_some]
  exact ⟨fun hn m hm => hn.2 m ((isMnemonic_iff h m).2 hm),
    fun hn => ⟨h, fun m hm => hn m ((isMnemonic_iff h m).1 hm)⟩⟩

/-- Names are the texts that may be labels. -/
theorem isLabelName_iff (cs : List Char) : isLabelName (String.ofList cs) ↔ IsName cs := by
  constructor
  · intro h
    have hname := h
    unfold isLabelName at h
    rw [String.toList_ofList] at h
    cases cs with
    | nil => exact absurd h (by simp)
    | cons c ds =>
      simp only [Bool.and_eq_true, Bool.or_eq_true, beq_iff_eq, List.all_eq_true] at h
      have hi : IsIdentifier (c :: ds) :=
        ⟨c, ds, rfl, h.1.1, fun d hd => (isInner_iff d).2 (h.1.2 d hd)⟩
      exact (isName_iff hi).2 (Option.isNone_iff_eq_none.1 h.2)
  · intro h
    have hnone := (isName_iff h.1).1 h
    obtain ⟨c, ds, rfl, hc, hds⟩ := h.1
    have hall : ds.all isIdentifierChar :=
      List.all_eq_true.2 fun d hd => (isInner_iff d).1 (hds d hd)
    unfold isLabelName
    rw [String.toList_ofList, hnone]
    rcases hc with hc | hc <;> simp [hc, hall]

end Mailbox.Grammar
