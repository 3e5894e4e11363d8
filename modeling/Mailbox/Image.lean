import Mailbox.Word
set_option autoImplicit false

/-!
# Memory images

The computer has 100 mailboxes.  An image gives each of them a word.

Normative source: SPEC_FULL.md, section 3 (MemoryImage).
-/

namespace Mailbox

/-- The number of a mailbox. -/
abbrev Address := Fin 100

/-- The words of all mailboxes. -/
structure Image where
  mailboxes : Vector Word 100
  deriving DecidableEq, Repr

namespace Image

/-- The image whose words are all zero. -/
def zero : Image := ⟨Vector.replicate 100 0⟩

instance : Inhabited Image := ⟨zero⟩

/-- The word of a mailbox. -/
def read (image : Image) (a : Address) : Word :=
  image.mailboxes[a]

/-- The image with another word in one mailbox. -/
def write (image : Image) (a : Address) (w : Word) : Image :=
  ⟨image.mailboxes.set a w⟩

/-- The word at a number that may lie outside the mailboxes. -/
def get? (image : Image) (n : Nat) : Option Word :=
  if h : n < 100 then some (image.read ⟨n, h⟩) else none

/-- The image with another word at a number; a number outside the mailboxes changes nothing. -/
def put (image : Image) (n : Nat) (w : Word) : Image :=
  if h : n < 100 then image.write ⟨n, h⟩ w else image

/-- The words in order of address. -/
def toList (image : Image) : List Word :=
  image.mailboxes.toList

/-- The image with given words at the addresses from one on. -/
def fill (image : Image) (start : Nat) : List Word → Image
  | [] => image
  | w :: ws => fill (image.put start w) (start + 1) ws

/-- The image with given words at the first addresses, and zeros after them. -/
def ofList (ws : List Word) : Image :=
  zero.fill 0 ws

/-- How many words remain when the zeros at the end are cut off. -/
def usedLength (image : Image) : Nat :=
  (image.toList.reverse.dropWhile (· = 0)).length

/-! ## Reading after writing -/

theorem ext_read {a b : Image} (h : ∀ i, a.read i = b.read i) : a = b := by
  obtain ⟨a⟩ := a
  obtain ⟨b⟩ := b
  congr 1
  apply Vector.ext
  intro i hi
  exact h ⟨i, hi⟩

@[simp] theorem read_zero (i : Address) : zero.read i = 0 := by
  simp [read, zero]

theorem read_write (image : Image) (a i : Address) (w : Word) :
    (image.write a w).read i = if i = a then w else image.read i := by
  simp only [read, write, Fin.getElem_fin, Vector.getElem_set]
  by_cases h : (a : Nat) = i
  · simp [h, Fin.ext_iff]
  · simp [h, Fin.ext_iff, Ne.symm h]

@[simp] theorem read_write_self (image : Image) (a : Address) (w : Word) :
    (image.write a w).read a = w := by
  simp [read_write]

theorem read_write_of_ne (image : Image) {a i : Address} (w : Word) (h : i ≠ a) :
    (image.write a w).read i = image.read i := by
  simp [read_write, h]

@[simp] theorem get?_val (image : Image) (a : Address) : image.get? a = some (image.read a) := by
  simp [get?]

@[simp] theorem length_toList (image : Image) : image.toList.length = 100 := by
  simp [toList]

end Image

end Mailbox
