import Mailbox.Files.Path
set_option autoImplicit false

/-!
# Names with extensions

What the functions on paths come to for a path that ends with a dot and an extension.  Main
statements: such a path has that extension, and giving it another one changes nothing before the
dot.  Both need a name before the dot, and the second one needs it to be more than a dot.
-/

namespace Mailbox

namespace Path

/-! ## The last piece -/

theorem pieces_ne_nil (path : String) : pieces path ≠ [] := by
  simp [pieces, Text.separated_ne_nil]

/-- The text behind the last slash. -/
def lastPiece (path : String) : String :=
  (pieces path).getLast (pieces_ne_nil path)

theorem dropLast_append_lastPiece (path : String) :
    (pieces path).dropLast ++ [lastPiece path] = pieces path :=
  List.dropLast_concat_getLast (pieces_ne_nil path)

theorem getLast?_pieces (path : String) : (pieces path).getLast? = some (lastPiece path) :=
  List.getLast?_eq_some_getLast (pieces_ne_nil path)

theorem reverse_pieces (path : String) :
    (pieces path).reverse = lastPiece path :: (pieces path).dropLast.reverse := by
  rw [← dropLast_append_lastPiece, List.reverse_append, List.dropLast_concat]
  rfl

/-- Text without slashes is part of the last piece. -/
theorem pieces_append (path : String) {rest : String} (h : '/' ∉ rest.toList) :
    pieces (path ++ rest) = (pieces path).dropLast ++ [lastPiece path ++ rest] := by
  have hlast : Text.separated (· == '/') path.toList =
      (Text.separated (· == '/') path.toList).dropLast ++
        [(Text.separated (· == '/') path.toList).getLast (Text.separated_ne_nil _ _)] :=
    (List.dropLast_concat_getLast _).symm
  have hrest : ∀ c ∈ rest.toList, (c == '/') = false := by
    intro c hc
    rw [beq_eq_false_iff_ne]
    rintro rfl
    exact h hc
  have hpieces := Text.separated_append_last hlast hrest
  simp only [pieces, lastPiece, String.toList_append, hpieces, List.map_append, List.map_cons,
    List.map_nil, List.map_dropLast, List.getLast_map, String.ofList_append, String.ofList_toList]

/-- The pieces with slashes between them are the path again. -/
theorem intercalate_pieces (path : String) : "/".intercalate (pieces path) = path := by
  apply String.toList_injective
  have hpieces : (pieces path).map String.toList = Text.separated (· == '/') path.toList := by
    simp [pieces, Function.comp_def]
  rw [String.toList_intercalate, hpieces]
  exact Text.intercalate_separated '/' path.toList

/-- A piece that leads to something in the folder it is followed from. -/
structure IsPlain (piece : String) : Prop where
  not_idle : isIdle piece = false
  ne_up : piece ≠ ".."

/-! ## Extensions -/

theorem append_lmc (path : String) : path ++ ".lmc" = path ++ "." ++ "lmc" := by
  rw [String.append_assoc]
  rfl

theorem append_lmo (path : String) : path ++ ".lmo" = path ++ "." ++ "lmo" := by
  rw [String.append_assoc]
  rfl

/-- Text that can be the extension of a name as a whole. -/
structure IsExtension (ext : String) : Prop where
  ne_empty : ext ≠ ""
  no_dot : '.' ∉ ext.toList
  no_slash : '/' ∉ ext.toList

theorem IsExtension.lmc : IsExtension "lmc" := ⟨by decide, by decide, by decide⟩

theorem IsExtension.lmo : IsExtension "lmo" := ⟨by decide, by decide, by decide⟩

section

variable {ext : String} (hext : IsExtension ext)

include hext

/-- A name with an extension is cut before it. -/
theorem splitName_append {stem : String} (hstem : stem ≠ "") :
    splitName (stem ++ "." ++ ext) = (stem, some ext) := by
  have hreversed : (stem ++ "." ++ ext).toList.reverse =
      ext.toList.reverse ++ '.' :: stem.toList.reverse := by
    simp
  have hext' : ∀ c ∈ ext.toList.reverse, (c != '.') = true := by
    intro c hc
    rw [bne_iff_ne]
    rintro rfl
    exact hext.no_dot (List.mem_reverse.1 hc)
  have hdrop : (ext.toList.reverse ++ '.' :: stem.toList.reverse).dropWhile (· != '.') =
      '.' :: stem.toList.reverse := by
    rw [List.dropWhile_append_of_pos hext']
    rfl
  have htake : (ext.toList.reverse ++ '.' :: stem.toList.reverse).takeWhile (· != '.') =
      ext.toList.reverse := by
    rw [List.takeWhile_append_of_pos hext']
    simp
  obtain ⟨c, cs, hcs⟩ : ∃ c cs, stem.toList.reverse = c :: cs := by
    apply List.exists_cons_of_ne_nil
    simpa using hstem
  have hstem' : (c :: cs).reverse = stem.toList := by
    rw [← hcs, List.reverse_reverse]
  simp only [splitName, hreversed, htake, hdrop]
  simp only [hcs, hstem', List.reverse_reverse, String.ofList_toList]

theorem isIdle_append (stem : String) : isIdle (stem ++ "." ++ ext) = false := by
  have hempty : stem ++ "." ++ ext ≠ "" := by simp
  have hdot : stem ++ "." ++ ext ≠ "." := by
    intro h
    have hlength := congrArg String.length h
    have hpos : ext.length ≠ 0 := by simpa using hext.ne_empty
    simp only [String.length_append] at hlength
    exact hpos (by omega)
  simp [isIdle, hempty, hdot]

/-- A name with an extension leads to something in its folder, whatever the name. -/
theorem isPlain_append (stem : String) : IsPlain (stem ++ "." ++ ext) := by
  refine ⟨isIdle_append hext stem, ?_⟩
  intro h
  have hlast : (stem ++ "." ++ ext).toList.getLast? = some '.' := by
    rw [h]
    rfl
  have hne : ext.toList ≠ [] := by simpa using hext.ne_empty
  rw [String.toList_append, List.getLast?_append, List.getLast?_eq_some_getLast hne,
    Option.some_or, Option.some.injEq] at hlast
  exact hext.no_dot (hlast ▸ List.getLast_mem hne)

theorem pieces_append_ext (path : String) :
    pieces (path ++ "." ++ ext) =
      (pieces path).dropLast ++ [lastPiece path ++ "." ++ ext] := by
  have hslash : '/' ∉ ("." ++ ext).toList := by
    simpa using hext.no_slash
  rw [String.append_assoc, pieces_append path hslash, String.append_assoc]

theorem lastPiece_append (path : String) :
    lastPiece (path ++ "." ++ ext) = lastPiece path ++ "." ++ ext := by
  simp only [lastPiece, pieces_append_ext hext, List.getLast_concat]

theorem fileName?_append (path : String) :
    fileName? (path ++ "." ++ ext) = some (lastPiece path ++ "." ++ ext) := by
  have hplain := isPlain_append hext (lastPiece path)
  rw [fileName?, pieces_append_ext hext, List.filter_append]
  simp [hplain.not_idle, hplain.ne_up]

/-- A path that ends with an extension behind a name has that extension. -/
theorem extension?_append {path : String} (hname : lastPiece path ≠ "") :
    extension? (path ++ "." ++ ext) = some ext := by
  rw [extension?, fileName?_append hext, Option.bind_some, splitName_append hext hname]

/-- Another extension takes the place of the old one, and the path before it stays. -/
theorem withExtension_append {path new : String} (hnew : IsExtension new)
    (hname : lastPiece path ≠ "") (hdot : lastPiece path ≠ ".") :
    withExtension (path ++ "." ++ ext) new = path ++ "." ++ new := by
  have hreversed : (pieces (path ++ "." ++ ext)).reverse =
      (lastPiece path ++ "." ++ ext) :: (pieces path).dropLast.reverse := by
    rw [pieces_append_ext hext, List.reverse_append]
    rfl
  have hfolders : ((pieces (path ++ "." ++ ext)).reverse.dropWhile isIdle).drop 1 =
      (pieces path).dropLast.reverse := by
    rw [hreversed, List.dropWhile_cons_of_neg (by simp [isIdle_append hext])]
    rfl
  have hpieces : ((lastPiece path ++ "." ++ new) :: (pieces path).dropLast.reverse).reverse =
      pieces (path ++ "." ++ new) := by
    rw [pieces_append_ext hnew, List.reverse_cons, List.reverse_reverse]
  simp only [withExtension, fileName?_append hext, hfolders, splitName_append hext hname]
  rw [if_neg (by simp [hdot]), hpieces, intercalate_pieces]

end

end Path

end Mailbox
