import Mailbox.Word
set_option autoImplicit false

/-!
# Numerals

Reading decimal numerals.  A numeral of a word has an optional sign and at least one digit; a
numeral of a count has no minus sign.  Only the ten ASCII digits count as digits.  Main statement:
the decimal text of a word reads back as that word.
-/

namespace Mailbox.Text

/-- Why a text is no numeral of a word. -/
inductive NumeralFault where
  | empty
  | invalidDigit
  | tooLarge
  | tooSmall
  deriving DecidableEq, Repr

/-- The cause in words. -/
def NumeralFault.message : NumeralFault → String
  | .empty => "cannot parse integer from empty string"
  | .invalidDigit => "invalid digit found in string"
  | .tooLarge => "number too large to fit in target type"
  | .tooSmall => "number too small to fit in target type"

/-- The number that decimal digits write. -/
def digitsValue (ds : List Char) : Nat :=
  Nat.ofDigitChars 10 ds 0

/-- The number that digits write behind those of another number, unless it reaches a bound. -/
def extendBelow? (bound n : Nat) : List Char → Option Nat
  | [] => some n
  | d :: ds =>
    let next := 10 * n + (d.toNat - '0'.toNat)
    if next < bound then extendBelow? bound next ds else none

/-- The number that decimal digits write, unless it reaches a bound.  Digits behind the place where
it does are not looked at. -/
def digitsBelow? (bound : Nat) (ds : List Char) : Option Nat :=
  extendBelow? bound 0 ds

/-- Splits off a sign.  The flag tells whether it is a minus. -/
def splitSign : List Char → Bool × List Char
  | '-' :: ds => (true, ds)
  | '+' :: ds => (false, ds)
  | ds => (false, ds)

/-- Reads a numeral of a word.  A number that leaves the range within its leading digits counts
as too large or too small whatever follows; otherwise a character that is no digit is at fault. -/
def readWord (cs : List Char) : Except NumeralFault Word :=
  if cs.isEmpty then .error .empty
  else
    let (negative, ds) := splitSign cs
    let magnitude? := digitsBelow? 9223372036854775809 (ds.takeWhile Char.isDigit)
    match magnitude?.bind fun n => Word.ofInt? (if negative then -n else n) with
    | none => .error (if negative then .tooSmall else .tooLarge)
    | some w => if ds.isEmpty || !ds.all Char.isDigit then .error .invalidDigit else .ok w

/-- Reads a numeral of a count below `2 ^ 64`, with an optional plus sign. -/
def readCount? (cs : List Char) : Option Nat :=
  let ds := match cs with
    | '+' :: ds => ds
    | ds => ds
  if ds.isEmpty || !ds.all Char.isDigit then none else digitsBelow? 18446744073709551616 ds

/-! ## Digits below a bound -/

theorem le_ofDigitChars (n : Nat) (ds : List Char) : n ≤ Nat.ofDigitChars 10 ds n := by
  induction ds generalizing n with
  | nil => simp
  | cons d ds ih =>
    rw [Nat.ofDigitChars_cons]
    exact Nat.le_trans (by omega) (ih _)

theorem extendBelow?_eq {bound n : Nat} (h : n < bound) (ds : List Char) :
    extendBelow? bound n ds =
      if Nat.ofDigitChars 10 ds n < bound then some (Nat.ofDigitChars 10 ds n) else none := by
  induction ds generalizing n with
  | nil => simp [extendBelow?, h]
  | cons d ds ih =>
    rw [extendBelow?, Nat.ofDigitChars_cons]
    by_cases hd : 10 * n + (d.toNat - '0'.toNat) < bound
    · simp only [hd, if_true]
      exact ih hd
    · have hle := le_ofDigitChars (10 * n + (d.toNat - '0'.toNat)) ds
      rw [if_neg hd, if_neg (by omega)]

theorem digitsBelow?_eq {bound : Nat} (h : 0 < bound) (ds : List Char) :
    digitsBelow? bound ds = if digitsValue ds < bound then some (digitsValue ds) else none :=
  extendBelow?_eq h ds

/-! ## What a numeral of a word is -/

theorem takeWhile_of_all_isDigit {ds : List Char} (h : ds.all Char.isDigit) :
    ds.takeWhile Char.isDigit = ds := by
  have ht : (ds ++ []).takeWhile Char.isDigit = ds ++ [].takeWhile Char.isDigit :=
    List.takeWhile_append_of_pos (List.all_eq_true.1 h)
  rwa [List.append_nil, List.takeWhile_nil, List.append_nil] at ht

/-- A numeral of a word is digits, after a sign or not, that write the value of the word. -/
theorem readWord_eq_ok_iff {cs ds : List Char} {negative : Bool}
    (hs : splitSign cs = (negative, ds)) (w : Word) :
    readWord cs = .ok w ↔
      ds ≠ [] ∧ ds.all Char.isDigit ∧
        w.val = if negative then -(digitsValue ds : Int) else digitsValue ds := by
  have hcs : ds ≠ [] → cs.isEmpty = false := by
    intro hds
    cases cs with
    | nil => simp [splitSign] at hs; exact absurd hs.2 hds
    | cons c cs => rfl
  unfold readWord
  rw [hs]
  constructor
  · intro h
    split at h
    · exact absurd h (by simp)
    · simp only at h
      split at h
      · exact absurd h (by simp)
      · rename_i v hv
        split at h
        · exact absurd h (by simp)
        · rename_i hd
          simp only [Bool.or_eq_true, Bool.not_eq_true', not_or, Bool.not_eq_false] at hd
          obtain rfl : v = w := by simpa using h
          rw [takeWhile_of_all_isDigit hd.2, digitsBelow?_eq (by decide)] at hv
          obtain ⟨n, hn, hw⟩ := Option.bind_eq_some_iff.1 hv
          split at hn
          · obtain rfl := Option.some.inj hn
            exact ⟨by simpa using hd.1, hd.2, Word.ofInt?_eq_some_iff.1 hw⟩
          · exact absurd hn (by simp)
  · rintro ⟨hne, hd, hw⟩
    have hsmall : digitsValue ds < 9223372036854775809 := by
      have hl := w.lower
      have hu := w.upper
      cases negative <;> simp at hw <;> omega
    rw [if_neg (by simp [hcs hne])]
    simp only [takeWhile_of_all_isDigit hd, digitsBelow?_eq (by decide : 0 < 9223372036854775809),
      hsmall, if_true, Option.bind_some, Word.ofInt?_eq_some_iff.2 hw]
    rw [if_neg (by simpa [hne] using hd)]

/-! ## Reading decimal text back -/

/-- Digits write the number they are the digits of. -/
theorem digitsValue_toString (n : Nat) : digitsValue (toString n).toList = n := by
  simp [digitsValue]

theorem all_isDigit_toString (n : Nat) : (toString n).toList.all Char.isDigit := by
  simp only [Nat.toString_eq_ofList_toDigits, String.toList_ofList, List.all_eq_true]
  intro c h
  exact Nat.isDigit_of_mem_toDigits (by decide) (by decide) h

theorem splitSign_of_isDigit {c : Char} {cs : List Char} (h : c.isDigit) :
    splitSign (c :: cs) = (false, c :: cs) := by
  have minus : c ≠ '-' := by rintro rfl; simp at h
  have plus : c ≠ '+' := by rintro rfl; simp at h
  simp [splitSign, minus, plus]

/-- The sign and the digits of the decimal text of a word. -/
theorem splitSign_decimal (w : Word) :
    splitSign w.decimal.toList = (decide (w.val < 0), (toString w.val.natAbs).toList) := by
  obtain ⟨n, hl, hu⟩ := w
  cases n with
  | ofNat n =>
    have hd := all_isDigit_toString n
    have ht : (Word.mk (Int.ofNat n) hl hu).decimal = toString n := rfl
    rw [ht]
    cases h : (toString n).toList with
    | nil => simp at h
    | cons c cs =>
      rw [h, List.all_cons, Bool.and_eq_true] at hd
      rw [splitSign_of_isDigit hd.1, ← h]
      simp
  | negSucc n =>
    have ht : (Word.mk (Int.negSucc n) hl hu).decimal = "-" ++ toString (n + 1) := rfl
    rw [ht, String.toList_append]
    simp [splitSign]

/-- The decimal text of a word reads back as the word. -/
theorem readWord_decimal (w : Word) : readWord w.decimal.toList = .ok w := by
  rw [readWord_eq_ok_iff (splitSign_decimal w)]
  refine ⟨by simp, all_isDigit_toString _, ?_⟩
  rw [digitsValue_toString]
  by_cases h : w.val < 0
  · rw [if_pos (decide_eq_true h)]
    omega
  · rw [if_neg (by simpa using h)]
    omega

end Mailbox.Text
