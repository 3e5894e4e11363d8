import Mailbox.Image.Object
set_option autoImplicit false

/-!
# Reading object files back

The bytes of a word stand at a fixed offset behind the mark, so each word is read from the bytes
that were written for it, and any eight bytes are those of a word.  Main statements: the object file
of an image is read as that image, and every other string of bytes is refused.

Normative source: SPEC_FULL.md, section A6.5.
-/

namespace Mailbox

/-- A block of a list that is made of blocks of one size. -/
theorem take_drop_flatMap {α β : Type} {f : α → List β} {size : Nat}
    (hf : ∀ a, (f a).length = size) (as : List α) {i : Nat} (hi : i < as.length) :
    ((as.flatMap f).drop (size * i)).take size = f as[i] := by
  induction as generalizing i with
  | nil => exact absurd hi (Nat.not_lt_zero i)
  | cons a as ih =>
    rw [List.flatMap_cons]
    cases i with
    | zero => rw [Nat.mul_zero, List.drop_zero, ← hf a, List.take_left, List.getElem_cons_zero]
    | succ i =>
      rw [Nat.mul_succ, Nat.add_comm (size * i) size, ← hf a, ← List.drop_drop, List.drop_left,
        hf a, ih (Nat.lt_of_succ_lt_succ hi), List.getElem_cons_succ]

/-- A list is made of its blocks of one size. -/
theorem flatten_blocks {α : Type} {size count : Nat} {xs : List α} (h : xs.length = size * count) :
    (List.ofFn fun i : Fin count => (xs.drop (size * i.val)).take size).flatten = xs := by
  induction count generalizing xs with
  | zero =>
    rw [Nat.mul_zero, List.length_eq_zero_iff] at h
    rw [List.ofFn_zero, h, List.flatten_nil]
  | succ count ih =>
    have hrest : (xs.drop size).length = size * count := by
      rw [List.length_drop, h, Nat.mul_succ, Nat.add_sub_cancel]
    have hblock (i : Fin count) : (xs.drop (size * i.succ.val)).take size =
        ((xs.drop size).drop (size * i.val)).take size := by
      rw [List.drop_drop, Fin.val_succ, Nat.mul_succ, Nat.add_comm]
    rw [List.ofFn_succ, List.flatten_cons]
    simp only [hblock]
    rw [ih hrest, Fin.val_zero, Nat.mul_zero, List.drop_zero, List.take_append_drop]

theorem Word.ofBits_ofBigEndian (w : Word) : ofBits (ofBigEndian (bigEndian 8 w.toBits)) = w := by
  rw [ofBigEndian_bigEndian]
  have hfits : w.toBits % Nat.pow 256 8 = w.toBits := Nat.mod_eq_of_lt w.toBits_lt
  rw [hfits, ofBits_toBits]

/-- The bytes of a number are below the power of 256 that their count gives. -/
theorem ofBigEndian_lt {count : Nat} {bytes : List UInt8} (h : bytes.length = count) :
    ofBigEndian bytes < Nat.pow 256 count := by
  induction count generalizing bytes with
  | zero =>
    obtain rfl := List.length_eq_zero_iff.1 h
    exact Nat.one_pos
  | succ count ih =>
    obtain rfl | ⟨front, last, rfl⟩ := List.eq_nil_or_concat bytes
    · exact absurd h (by simp)
    · rw [List.concat_eq_append] at h ⊢
      have hfront : front.length = count := by simpa using h
      have hpow : Nat.pow 256 (count + 1) = Nat.pow 256 count * 256 := rfl
      have hlt := ih hfront
      have hlast := last.toNat_lt
      rw [ofBigEndian_append_singleton, hpow]
      omega

/-- As many bytes as a number was read from are the bytes it was read from. -/
theorem bigEndian_ofBigEndian {count : Nat} {bytes : List UInt8} (h : bytes.length = count) :
    bigEndian count (ofBigEndian bytes) = bytes := by
  induction count generalizing bytes with
  | zero =>
    obtain rfl := List.length_eq_zero_iff.1 h
    rfl
  | succ count ih =>
    obtain rfl | ⟨front, last, rfl⟩ := List.eq_nil_or_concat bytes
    · exact absurd h (by simp)
    · rw [List.concat_eq_append] at h ⊢
      have hfront : front.length = count := by simpa using h
      have hlast := last.toNat_lt
      have hhigh : (ofBigEndian front * 256 + last.toNat) / 256 = ofBigEndian front := by omega
      have hlow : UInt8.ofNat (ofBigEndian front * 256 + last.toNat) = last := by
        apply UInt8.toNat_inj.1
        rw [UInt8.toNat_ofNat']
        omega
      rw [ofBigEndian_append_singleton, bigEndian, hhigh, hlow, ih hfront]

theorem Word.bigEndian_toBits_ofBits {bytes : List UInt8} (h : bytes.length = 8) :
    bigEndian 8 (ofBits (ofBigEndian bytes)).toBits = bytes := by
  rw [toBits_ofBits (ofBigEndian_lt h), bigEndian_ofBigEndian h]

namespace Image

theorem length_wordBytes (image : Image) : image.wordBytes.length = 800 := by
  have hsizes : (image.toList.map fun w => (bigEndian 8 w.toBits).length) =
      List.replicate 100 8 := by
    simp only [length_bigEndian, List.map_const', length_toList]
  rw [wordBytes, List.length_flatMap, hsizes, List.sum_replicate_nat]

/-- The eight bytes of a mailbox. -/
theorem take_drop_wordBytes (image : Image) (a : Address) :
    (image.wordBytes.drop (8 * a.val)).take 8 = bigEndian 8 (image.read a).toBits := by
  have hlt : a.val < image.toList.length := by
    rw [length_toList]
    exact a.isLt
  have hword : image.toList[a.val] = image.read a := by simp [toList, read]
  have hblock := take_drop_flatMap (f := fun w : Word => bigEndian 8 w.toBits)
    (fun w => length_bigEndian 8 w.toBits) image.toList hlt
  rw [wordBytes, hblock, hword]

/-- The object file of an image is read as that image. -/
theorem ofObject_toObject (image : Image) : ofObject image.toObject = .ok image := by
  have hbytes : image.toObject.data.toList = objectMark ++ image.wordBytes := rfl
  have hlength : (objectMark ++ image.wordBytes).length = objectSize := by
    rw [List.length_append, length_wordBytes]
    rfl
  have hmark : (objectMark ++ image.wordBytes).take 4 = objectMark :=
    List.take_left' rfl
  have hword (a : Address) : Word.ofBits (ofBigEndian
      (((objectMark ++ image.wordBytes).drop (4 + 8 * a.val)).take 8)) = image.read a := by
    have hbehind : (objectMark ++ image.wordBytes).drop 4 = image.wordBytes :=
      List.drop_left' rfl
    rw [← List.drop_drop, hbehind, take_drop_wordBytes, Word.ofBits_ofBigEndian]
  have himage : (⟨Vector.ofFn image.read⟩ : Image) = image := by
    apply ext_read
    intro a
    simp [read]
  rw [ofObject, hbytes, if_neg (fun hne => hne hlength), if_neg (fun hne => hne hmark)]
  simp only [hword, himage]

/-- Any 800 bytes are those of the words that are read from their blocks. -/
theorem exists_wordBytes_eq {bytes : List UInt8} (h : bytes.length = 800) :
    ∃ image : Image, image.wordBytes = bytes := by
  have hblock (a : Fin 100) : ((bytes.drop (8 * a.val)).take 8).length = 8 := by
    rw [List.length_take, List.length_drop]
    omega
  refine ⟨⟨Vector.ofFn fun a : Fin 100 =>
    .ofBits (ofBigEndian ((bytes.drop (8 * a.val)).take 8))⟩, ?_⟩
  rw [wordBytes, toList, Vector.toList_ofFn, List.flatMap_def, List.map_ofFn]
  simp only [Function.comp_def, Word.bigEndian_toBits_ofBits (hblock _)]
  exact flatten_blocks h

/-! ## Which bytes are object files -/

theorem ofObject_of_size {bytes : ByteArray} (h : bytes.size ≠ 804) :
    ofObject bytes = .error (.length bytes.size) :=
  if_pos h

theorem ofObject_of_mark {bytes : ByteArray} (h : bytes.size = 804)
    (hmark : ¬ objectMark <+: bytes.data.toList) : ofObject bytes = .error .mark := by
  have hsize : ¬ bytes.data.toList.length ≠ objectSize := fun hne => hne h
  have htake : bytes.data.toList.take 4 ≠ objectMark :=
    fun heq => hmark (List.prefix_iff_eq_take.2 heq.symm)
  rw [ofObject, if_neg hsize, if_pos htake]

/-- Every string of bytes with the length and the mark is the object file of an image. -/
theorem exists_toObject_eq {bytes : ByteArray} (h : bytes.size = 804)
    (hmark : objectMark <+: bytes.data.toList) : ∃ image : Image, image.toObject = bytes := by
  obtain ⟨body, hbody⟩ := hmark
  have hlength : body.length = 800 := by
    have htotal : (objectMark ++ body).length = 804 := by rw [hbody]; exact h
    rw [List.length_append] at htotal
    exact Nat.add_left_cancel htotal
  obtain ⟨image, himage⟩ := exists_wordBytes_eq hlength
  exact ⟨image, by rw [toObject, himage, hbody]⟩

theorem size_toObject (image : Image) : image.toObject.size = 804 := by
  have hlength : (objectMark ++ image.wordBytes).length = 804 := by
    rw [List.length_append, length_wordBytes]
    rfl
  exact hlength

theorem objectMark_isPrefix (image : Image) : objectMark <+: image.toObject.data.toList :=
  List.prefix_append _ _

/-- Bytes have a wrong length, or else no mark, or else they are the object file of an image. -/
theorem ofObject_cases (bytes : ByteArray) :
    (bytes.size ≠ 804 ∧ ofObject bytes = .error (.length bytes.size)) ∨
      (bytes.size = 804 ∧ ¬ objectMark <+: bytes.data.toList ∧ ofObject bytes = .error .mark) ∨
      ∃ image : Image, image.toObject = bytes := by
  by_cases hsize : bytes.size = 804
  · by_cases hmark : objectMark <+: bytes.data.toList
    · exact Or.inr (Or.inr (exists_toObject_eq hsize hmark))
    · exact Or.inr (Or.inl ⟨hsize, hmark, ofObject_of_mark hsize hmark⟩)
  · exact Or.inl ⟨hsize, ofObject_of_size hsize⟩

/-- Bytes are read as an image exactly if they are its object file. -/
theorem ofObject_eq_ok_iff (bytes : ByteArray) (image : Image) :
    ofObject bytes = .ok image ↔ image.toObject = bytes := by
  constructor
  · intro h
    rcases ofObject_cases bytes with ⟨_, hfault⟩ | ⟨_, _, hfault⟩ | ⟨other, rfl⟩
    · exact absurd (h.symm.trans hfault) (by simp)
    · exact absurd (h.symm.trans hfault) (by simp)
    · rw [ofObject_toObject] at h
      rw [Except.ok.inj h]
  · rintro rfl
    exact ofObject_toObject image

/-- Object files are the strings of 804 bytes that start with the mark, one for each image.  Any
other string of bytes is refused, for its length if that is wrong and for its mark otherwise. -/
theorem object_files_exact :
    (∀ image : Image, ofObject image.toObject = .ok image) ∧
      ∀ bytes : ByteArray,
        (∀ image, ofObject bytes = .ok image ↔ image.toObject = bytes) ∧
        ((∃ image, ofObject bytes = .ok image) ↔
          bytes.size = 804 ∧ [0x4C, 0x4D, 0x43, 0x00] <+: bytes.data.toList) ∧
        (∀ found, ofObject bytes = .error (.length found) ↔
          bytes.size ≠ 804 ∧ found = bytes.size) ∧
        (ofObject bytes = .error .mark ↔
          bytes.size = 804 ∧ ¬ [0x4C, 0x4D, 0x43, 0x00] <+: bytes.data.toList) := by
  refine ⟨ofObject_toObject, fun bytes => ⟨ofObject_eq_ok_iff bytes, ?_⟩⟩
  have hbytes : [0x4C, 0x4D, 0x43, 0x00] = objectMark := rfl
  rw [hbytes]
  rcases ofObject_cases bytes with ⟨hsize, h⟩ | ⟨hsize, hmark, h⟩ | ⟨image, rfl⟩
  · rw [h]
    exact ⟨by simp [hsize], fun found => by simp [hsize, eq_comm], by simp [hsize]⟩
  · rw [h]
    exact ⟨by simp [hmark], by simp [hsize], by simp [hsize, hmark]⟩
  · have hsize := size_toObject image
    have hmark := objectMark_isPrefix image
    rw [ofObject_toObject]
    exact ⟨by simp [hsize, hmark], by simp [hsize], by simp [hmark]⟩

end Image

end Mailbox
