set_option autoImplicit false

/-!
# Words

A mailbox holds one word: a whole number with sign that fits 64 bits.  Sums and differences
that leave this range stop at its nearer end, so they never wrap around.

Normative source: SPEC_FULL.md, section A7.
-/

namespace Mailbox

/-- The content of one mailbox. -/
structure Word where
  val : Int
  lower : -9223372036854775808 ≤ val
  upper : val ≤ 9223372036854775807
  deriving DecidableEq, Repr

namespace Word

@[ext] theorem ext {a b : Word} (h : a.val = b.val) : a = b := by
  cases a; cases b; simp_all

/-- The word nearest to a whole number. -/
def clamp (n : Int) : Word where
  val := max (-9223372036854775808) (min n 9223372036854775807)
  lower := by omega
  upper := by omega

/-- The word of a whole number that fits. -/
def ofInt? (n : Int) : Option Word :=
  if h : -9223372036854775808 ≤ n ∧ n ≤ 9223372036854775807 then some ⟨n, h.1, h.2⟩ else none

/-- The word whose two's complement form is the low 64 bits of a number. -/
def ofBits (bits : Nat) : Word where
  val := ((bits : Int) + 9223372036854775808) % 18446744073709551616 - 9223372036854775808
  lower := by omega
  upper := by omega

/-- The two's complement form of a word, a number below `2 ^ 64`. -/
def toBits (w : Word) : Nat :=
  (w.val % 18446744073709551616).toNat

instance {n : Nat} : OfNat Word n := ⟨clamp n⟩

instance : Inhabited Word := ⟨0⟩

instance : Add Word := ⟨fun a b => clamp (a.val + b.val)⟩

instance : Sub Word := ⟨fun a b => clamp (a.val - b.val)⟩

/-- The word of a character code. -/
def ofCode (code : UInt32) : Word where
  val := code.toNat
  lower := by omega
  upper := by have := code.toNat_lt; omega

/-- The character code a word stands for, if it is in the range of codes. -/
def toCode? (w : Word) : Option UInt32 :=
  if 0 ≤ w.val ∧ w.val < 4294967296 then some (UInt32.ofNat w.val.toNat) else none

/-- The decimal text of a word: digits, after a minus sign if it is negative. -/
def decimal (w : Word) : String :=
  toString w.val

/-! ## Values -/

theorem val_clamp_of_fits {n : Int} (hl : -9223372036854775808 ≤ n)
    (hu : n ≤ 9223372036854775807) : (clamp n).val = n := by
  simp only [clamp]; omega

@[simp] theorem clamp_val (w : Word) : clamp w.val = w :=
  ext (val_clamp_of_fits w.lower w.upper)

@[simp] theorem ofInt?_val (w : Word) : ofInt? w.val = some w := by
  simp [ofInt?, w.lower, w.upper]

theorem ofInt?_eq_some_iff {n : Int} {w : Word} : ofInt? n = some w ↔ w.val = n := by
  constructor
  · intro h
    unfold ofInt? at h
    split at h
    · cases h; rfl
    · cases h
  · rintro rfl
    exact ofInt?_val w

@[simp] theorem val_zero : (0 : Word).val = 0 := by decide

theorem val_ofNat {n : Nat} (h : n ≤ 9223372036854775807) :
    (OfNat.ofNat n : Word).val = n :=
  val_clamp_of_fits (by omega) (by omega)

theorem val_add (a b : Word) : (a + b).val = (clamp (a.val + b.val)).val := rfl

theorem val_sub (a b : Word) : (a - b).val = (clamp (a.val - b.val)).val := rfl

@[simp] theorem val_ofCode (code : UInt32) : (ofCode code).val = code.toNat := rfl

/-! ## Two's complement -/

theorem toBits_lt (w : Word) : w.toBits < 18446744073709551616 := by
  unfold toBits; omega

@[simp] theorem ofBits_toBits (w : Word) : ofBits w.toBits = w := by
  have hl := w.lower
  have hu := w.upper
  apply ext
  simp only [ofBits, toBits]
  omega

theorem toBits_ofBits {n : Nat} (h : n < 18446744073709551616) : (ofBits n).toBits = n := by
  simp only [ofBits, toBits]
  omega

end Word

end Mailbox
