import Mathlib.Data.List.DropRight
import Mathlib.Order.Bounds.Basic
import Mailbox.Proofs.Image.ObjectFile
import Mailbox.Proofs.Listing.Rows
set_option autoImplicit false

/-!
# Listing an object file

An object file has no labels, and nothing tells how long its program was, so its listing goes up to
the last word that is not zero.  Main statement: it has the first rows of the listing of the source,
without their labels, and the rows that it lacks are those of the zeros at the end.

Normative source: SPEC_FULL.md, section A6.6.
-/

namespace Mailbox

/-! ## Used mailboxes -/

theorem length_rdropWhile_le_iff {α : Type} (f : α → Bool) (xs : List α) (n : Nat) :
    (xs.rdropWhile f).length ≤ n ↔ ∀ x ∈ xs.drop n, f x := by
  induction xs using List.reverseRecOn with
  | nil => simp
  | append_singleton xs x ih =>
    by_cases hx : f x
    · rw [List.rdropWhile_concat_pos f xs x hx, ih, List.drop_append, List.forall_mem_append]
      have hlast : ∀ y ∈ [x].drop (n - xs.length), f y := by
        intro y hy
        rw [List.mem_singleton.1 (List.mem_of_mem_drop hy)]
        exact hx
      exact (and_iff_left hlast).symm
    · rw [List.rdropWhile_concat_neg f xs x hx]
      constructor
      · intro hn
        rw [List.drop_of_length_le hn]
        simp
      · intro hall
        -- otherwise the last element is among those from `n` on
        refine Nat.le_of_not_lt fun hlt => hx (hall x ?_)
        have hn : n ≤ xs.length := by
          rw [List.length_append, List.length_singleton] at hlt
          omega
        rw [List.drop_append_of_le_length hn]
        exact List.mem_append_right _ (List.mem_singleton_self x)

namespace Image

theorem getElem?_toList (image : Image) (a : Address) :
    image.toList[a.val]? = some (image.read a) := by
  have ha : a.val < image.toList.length := by
    rw [length_toList]
    exact a.isLt
  rw [List.getElem?_eq_getElem ha]
  simp [toList, read]

theorem exists_read_of_mem_drop {image : Image} {n : Nat} {w : Word} (h : w ∈ image.toList.drop n) :
    ∃ a : Address, n ≤ a.val ∧ image.read a = w := by
  obtain ⟨i, hi⟩ := List.mem_iff_getElem?.1 h
  rw [List.getElem?_drop] at hi
  obtain ⟨hlt, hw⟩ := List.getElem?_eq_some_iff.1 hi
  rw [length_toList] at hlt
  refine ⟨⟨n + i, hlt⟩, Nat.le_add_right n i, ?_⟩
  rw [getElem?_toList image ⟨n + i, hlt⟩] at hi
  exact Option.some.inj hi

/-- From some mailbox on all words are zero exactly if it is none of the used ones. -/
theorem usedLength_le_iff (image : Image) (n : Nat) :
    image.usedLength ≤ n ↔ ∀ a : Address, n ≤ a.val → image.read a = 0 := by
  have hlength : image.usedLength = (image.toList.rdropWhile (decide <| · = 0)).length := by
    rw [List.rdropWhile, List.length_reverse]
    rfl
  rw [hlength, length_rdropWhile_le_iff]
  constructor
  · intro h a ha
    have hword : (image.toList.drop n)[a.val - n]? = some (image.read a) := by
      rw [List.getElem?_drop, Nat.add_sub_cancel' ha, getElem?_toList]
    exact of_decide_eq_true (h _ (List.mem_of_getElem? hword))
  · intro h w hw
    obtain ⟨a, ha, rfl⟩ := exists_read_of_mem_drop hw
    exact decide_eq_true (h a ha)

theorem isLeast_usedLength (image : Image) :
    IsLeast {n | ∀ a : Address, n ≤ a.val → image.read a = 0} image.usedLength :=
  ⟨(image.usedLength_le_iff _).1 (Nat.le_refl _), fun n hn => (image.usedLength_le_iff n).2 hn⟩

end Image

/-! ## Rows without labels -/

namespace Listing

/-- What is left of a row without its label: all up to the last white space. -/
def withoutLabel (row : List Char) : List Char :=
  row.rdropWhile fun c => !Text.isSpace c

variable {image : Image} {symbols : SymbolTable}

theorem withoutLabel_line {a : Address}
    (h : ∀ name, symbols.labelAt? a.val = some name → isLabelName name) :
    withoutLabel (line image symbols a) = stem image a := by
  have hlabel : ∀ c ∈ ((symbols.labelAt? a.val).getD "").toList, !Text.isSpace c := by
    cases hname : symbols.labelAt? a.val with
    | none => simp
    | some name =>
      intro c hc
      rw [isSpace_of_mem_labelName (h name hname) c hc]
      rfl
  rw [line, withoutLabel, List.rdropWhile, List.reverse_append,
    List.dropWhile_append_of_pos (by simpa using hlabel)]
  refine List.rdropWhile_eq_self_iff.2 fun hne => ?_
  have hspace : Text.isSpace ' ' := by decide
  simpa [stem] using hspace

theorem line_empty (a : Address) : line image .empty a = stem image a := by
  simp [line]

/-- Without its labels, a listing is one of fewer rows without a table. -/
theorem rows_empty {length used : Nat} (hused : used ≤ length)
    (h : ∀ n name, symbols.labelAt? n = some name → isLabelName name) :
    rows image .empty used = ((rows image symbols length).take used).map withoutLabel := by
  have hline : withoutLabel ∘ line image symbols = line image .empty := by
    funext a
    rw [Function.comp_apply, withoutLabel_line (h a.val), line_empty]
  rw [rows, rows, ← List.map_take, List.take_take, Nat.min_eq_left hused, List.map_map, hline]

theorem stem_of_zero {a : Address} (h : image.read a = 0) :
    stem image a = ("  " ++ Text.zeroPad 2 a.val ++ "     0  HLT          ").toList := by
  have hdecimal : Text.alignRight 4 (0 : Word).decimal = "   0" := by decide +kernel
  have htext : Text.alignLeft 11 (wordText 0) = "HLT        " := by decide +kernel
  rw [stem, h, hdecimal, htext]
  simp

end Listing

/-! ## Programs -/

namespace Program

variable {source : String} {p : Program}

/-- The program of an image of which nothing else is known. -/
def ofImage (image : Image) : Program :=
  ⟨image, .empty, image.usedLength⟩

theorem usedLength_le_length (h : assemble source = .ok p) : p.image.usedLength ≤ p.length := by
  obtain ⟨ss, _, hss⟩ := exists_parse_of_assemble h
  exact (p.image.usedLength_le_iff p.length).2 fun _ ha =>
    (represents_of_ofStatements hss).read_eq_zero ha

theorem listing_ofImage (h : assemble source = .ok p) :
    (ofImage p.image).listing = Listing.ofLines (Listing.headerLine ::
      ((Listing.rows p.image p.symbols p.length).take p.image.usedLength).map
        Listing.withoutLabel) := by
  rw [listing, Listing.text_eq]
  exact congrArg (fun rows => Listing.ofLines (Listing.headerLine :: rows))
    (Listing.rows_empty (usedLength_le_length h) (isLabelName_of_labelAt? h))

/-- A row behind the used mailboxes shows a zero. -/
theorem getElem?_rows_of_usedLength_le {n : Nat} (hused : p.image.usedLength ≤ n)
    (hn : n < p.length) (hlength : p.length ≤ 100) :
    (Listing.rows p.image p.symbols p.length)[n]? =
      some (("  " ++ Text.zeroPad 2 n ++ "     0  HLT          ").toList ++
        ((p.symbols.labelAt? n).getD "").toList) := by
  let a : Address := ⟨n, Nat.lt_of_lt_of_le hn hlength⟩
  have hzero : p.image.read a = 0 := (p.image.usedLength_le_iff n).1 hused a (Nat.le_refl n)
  rw [Listing.getElem?_rows (a := a) hn, Listing.line, Listing.stem_of_zero hzero]

/-- The listing of an object file has the rows of the used mailboxes, as the listing of the source
has them but without labels; the other rows of the source show zeros. -/
theorem listing_of_object_file (hp : assemble source = .ok p) :
    p.image.usedLength ≤ p.length ∧
      IsLeast {n | ∀ a : Address, n ≤ a.val → p.image.read a = 0} p.image.usedLength ∧
      ∃ image rows, Image.ofObject p.image.toObject = .ok image ∧
        Listing.lines p.listing = Listing.headerLine :: rows ∧ rows.length = p.length ∧
        (ofImage image).listing = Listing.ofLines (Listing.headerLine ::
          (rows.take p.image.usedLength).map Listing.withoutLabel) ∧
        ∀ n, p.image.usedLength ≤ n → n < p.length →
          rows[n]? = some (("  " ++ Text.zeroPad 2 n ++ "     0  HLT          ").toList ++
            ((p.symbols.labelAt? n).getD "").toList) := by
  obtain ⟨ss, _, hss⟩ := exists_parse_of_assemble hp
  have hlength := (represents_of_ofStatements hss).length_le
  refine ⟨usedLength_le_length hp, p.image.isLeast_usedLength, p.image,
    Listing.rows p.image p.symbols p.length, p.image.ofObject_toObject, lines_listing hp,
    Listing.length_rows hlength, listing_ofImage hp, fun n hused hn => ?_⟩
  exact getElem?_rows_of_usedLength_le hused hn hlength

/-- Zeros at the end that are an instruction and data, with and without a label. -/
theorem listing_of_object_file_zeros :
    let p : Program :=
      ⟨Image.ofList [902, 0, 0], SymbolTable.ofList [("start", 0), ("end", 2)], 3⟩
    assemble "start OUT\n DAT\nend HLT" = .ok p ∧ p.image.usedLength = 1 ∧
      ∃ image rows, Image.ofObject p.image.toObject = .ok image ∧
        Listing.lines p.listing = Listing.headerLine :: rows ∧
        (ofImage image).listing =
          Listing.ofLines (Listing.headerLine :: (rows.take 1).map Listing.withoutLabel) ∧
        rows[2]? = some "  02     0  HLT          end".toList := by
  intro p
  have hp : assemble "start OUT\n DAT\nend HLT" = .ok p := by decide +kernel
  have hused : p.image.usedLength = 1 := by decide +kernel
  obtain ⟨_, _, image, rows, himage, hlines, _, hlisting, hzeros⟩ := listing_of_object_file hp
  rw [hused] at hlisting hzeros
  refine ⟨hp, hused, image, rows, himage, hlines, hlisting, ?_⟩
  rw [hzeros 2 (by decide) (by decide)]
  decide +kernel

end Program

end Mailbox
