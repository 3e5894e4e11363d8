import Mailbox.Image
set_option autoImplicit false

/-!
# Object files

The stored form of an image: four bytes that mark the format, then the 100 words in order of
address, eight bytes each in two's complement, the highest byte first.  Reading accepts nothing
else.

Normative source: SPEC_FULL.md, section A6.5.
-/

namespace Mailbox

/-! ## Numbers as bytes -/

/-- The low bytes of a number, the highest first. -/
def bigEndian : (count : Nat) → Nat → List UInt8
  | 0, _ => []
  | count + 1, n => bigEndian count (n / 256) ++ [UInt8.ofNat n]

/-- The number that bytes write, the highest first. -/
def ofBigEndian (bytes : List UInt8) : Nat :=
  bytes.foldl (fun n b => n * 256 + b.toNat) 0

@[simp] theorem length_bigEndian (count n : Nat) : (bigEndian count n).length = count := by
  induction count generalizing n with
  | zero => rfl
  | succ count ih => simp [bigEndian, ih]

theorem ofBigEndian_append_singleton (bytes : List UInt8) (b : UInt8) :
    ofBigEndian (bytes ++ [b]) = ofBigEndian bytes * 256 + b.toNat := by
  simp [ofBigEndian]

theorem ofBigEndian_bigEndian (count n : Nat) :
    ofBigEndian (bigEndian count n) = n % Nat.pow 256 count := by
  induction count generalizing n with
  | zero => simp [bigEndian, ofBigEndian, Nat.mod_one]
  | succ count ih =>
    have hpow : Nat.pow 256 (count + 1) = 256 * Nat.pow 256 count := Nat.mul_comm _ _
    rw [bigEndian, ofBigEndian_append_singleton, ih, hpow, Nat.mod_mul, UInt8.toNat_ofNat']
    omega

namespace Image

/-- The bytes that mark the format: the letters `LMC` and a zero. -/
def objectMark : List UInt8 := [0x4C, 0x4D, 0x43, 0x00]

/-- The size of an object file in bytes. -/
def objectSize : Nat := 804

/-- Why bytes are no object file. -/
inductive ObjectFault where
  | length (found : Nat)
  | mark
  deriving DecidableEq, Repr

/-- The fault in words. -/
def ObjectFault.message : ObjectFault → String
  | .length found => s!"object file should be {objectSize} bytes long, found {found}"
  | .mark => "not an LMinC object file"

/-- The bytes of the words of an image. -/
def wordBytes (image : Image) : List UInt8 :=
  image.toList.flatMap fun w => bigEndian 8 w.toBits

/-- The object file of an image. -/
def toObject (image : Image) : ByteArray :=
  ⟨(objectMark ++ image.wordBytes).toArray⟩

/-- The image of an object file.  A wrong length counts before a wrong mark. -/
def ofObject (bytes : ByteArray) : Except ObjectFault Image :=
  let bs := bytes.data.toList
  if bs.length ≠ objectSize then .error (.length bs.length)
  else if bs.take 4 ≠ objectMark then .error .mark
  else .ok ⟨Vector.ofFn fun a : Fin 100 =>
    .ofBits (ofBigEndian ((bs.drop (4 + 8 * a.val)).take 8))⟩

end Image

end Mailbox
