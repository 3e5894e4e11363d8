import Mailbox.Proofs.Assembly.Disassembly
set_option autoImplicit false

/-!
# Rows of a listing

A listing is one header and one row for each mailbox, and the fields of a row are parted by white
space, however wide they are.  Main statement: from the words of the rows a listing can be read
back, so two programs with the same listing have the same mailboxes and the same labels.

Normative source: SPEC_FULL.md, section A6.6.
-/

namespace Mailbox

namespace Text

/-! ## Words -/

/-- The words of a text: what stands between white space. -/
def words (cs : List Char) : List (List Char) :=
  (separated isSpace cs).filter (!·.isEmpty)

theorem words_append_cons {c : Char} (hc : isSpace c) (xs ys : List Char) :
    words (xs ++ c :: ys) = words xs ++ words ys := by
  rw [words, separated_append_cons hc, List.filter_append]
  rfl

/-- White space at the start of a text is passed over. -/
theorem words_blanks_append {blanks : List Char} (h : ∀ c ∈ blanks, isSpace c) (xs : List Char) :
    words (blanks ++ xs) = words xs := by
  induction blanks with
  | nil => rfl
  | cons c blanks ih =>
    obtain ⟨hc, hblanks⟩ := List.forall_mem_cons.1 h
    exact (words_append_cons hc [] (blanks ++ xs)).trans (ih hblanks)

/-- White space parts the words on its two sides. -/
theorem words_append_blanks {blanks : List Char} (h : ∀ c ∈ blanks, isSpace c) (hne : blanks ≠ [])
    (xs ys : List Char) : words (xs ++ (blanks ++ ys)) = words xs ++ words ys := by
  obtain ⟨c, rest, rfl⟩ := List.exists_cons_of_ne_nil hne
  obtain ⟨hc, hrest⟩ := List.forall_mem_cons.1 h
  rw [List.cons_append, words_append_cons hc, words_blanks_append hrest]

theorem words_eq_singleton {cs : List Char} (hne : cs ≠ []) (h : ∀ c ∈ cs, isSpace c = false) :
    words cs = [cs] := by
  rw [words, separated_eq_singleton h, List.filter_cons_of_pos (by simpa using hne),
    List.filter_nil]

theorem isSpace_of_mem_fill (n : Nat) : ∀ c ∈ (fill n ' ').toList, isSpace c := by
  intro c hc
  rw [fill, String.toList_ofList] at hc
  rw [List.eq_of_mem_replicate hc]
  rfl

end Text

/-! ## Characters of labels -/

theorem isSpace_of_mem_labelName {name : String} (h : isLabelName name) :
    ∀ c ∈ name.toList, Text.isSpace c = false :=
  fun c hc => isSpace_of_isWordChar ((isName_of_isLabelName h).1.isWordChar c hc)

namespace Listing

/-! ## Lines -/

/-- The lines of a text, each with a newline at its end. -/
def lines (text : String) : List (List Char) :=
  Text.ended (· == '\n') text.toList

/-- The text of lines, each with a newline at its end. -/
def ofLines (ls : List (List Char)) : String :=
  String.ofList (ls.flatMap (· ++ ['\n']))

/-- The first line of a listing. -/
def headerLine : List Char := "addr  word  instruction  label".toList

/-- The fields of a row in front of the label. -/
def stem (image : Image) (a : Address) : List Char :=
  ("  " ++ Text.zeroPad 2 a.val ++ "  " ++ Text.alignRight 4 (image.read a).decimal ++ "  " ++
    Text.alignLeft 11 (wordText (image.read a)) ++ "  ").toList

/-- The line of a mailbox. -/
def line (image : Image) (symbols : SymbolTable) (a : Address) : List Char :=
  stem image a ++ ((symbols.labelAt? a.val).getD "").toList

/-- The lines behind the header. -/
def rows (image : Image) (symbols : SymbolTable) (length : Nat) : List (List Char) :=
  ((List.finRange 100).take length).map (line image symbols)

variable {image : Image} {symbols : SymbolTable}

theorem toList_row (a : Address) :
    (row image symbols a).toList = line image symbols a ++ ['\n'] := by
  simp [row, line, stem]

theorem text_eq (length : Nat) :
    text image symbols length = ofLines (headerLine :: rows image symbols length) := by
  have hheader : header.toList = headerLine ++ ['\n'] := by decide
  have hrow : String.toList ∘ row image symbols = (· ++ ['\n']) ∘ line image symbols :=
    funext toList_row
  apply String.toList_inj.1
  rw [text, ofLines, String.toList_join, String.toList_ofList, List.flatMap_cons, List.flatMap_cons,
    hheader, rows, List.flatMap_map, List.flatMap_map]
  exact congrArg (_ ++ List.flatMap · _) hrow

theorem length_rows {length : Nat} (h : length ≤ 100) :
    (rows image symbols length).length = length := by
  rw [rows, List.length_map, List.length_take, List.length_finRange, Nat.min_eq_left h]

theorem getElem?_rows {length : Nat} {a : Address} (h : a.val < length) :
    (rows image symbols length)[a.val]? = some (line image symbols a) := by
  have ha : a.val < (List.finRange 100).length := by
    rw [List.length_finRange]
    exact a.isLt
  rw [rows, List.getElem?_map, List.getElem?_take, if_pos h, List.getElem?_eq_getElem ha,
    List.getElem_finRange]
  rfl

theorem newline_not_mem_stem (a : Address) : '\n' ∉ stem image a := by
  have haddress := newline_not_mem_of_isWordChar
    (Grammar.isNumber_zeroPad 2 a.val).isWordChar
  have hdecimal := newline_not_mem_of_isWordChar
    (Grammar.isLiteral_decimal (image.read a)).isWordChar
  have hinstruction := Grammar.newline_not_mem_wordText (image.read a)
  simp [stem, Text.alignRight, Text.alignLeft, Text.fill, haddress, hdecimal, hinstruction]

/-- Labels that may stand in a source break no line. -/
theorem newline_not_mem_line {a : Address}
    (h : ∀ name, symbols.labelAt? a.val = some name → isLabelName name) :
    '\n' ∉ line image symbols a := by
  rw [line, List.mem_append, not_or]
  refine ⟨newline_not_mem_stem a, ?_⟩
  cases hlabel : symbols.labelAt? a.val with
  | none => simp
  | some name =>
    exact fun hmem => absurd (isSpace_of_mem_labelName (h name hlabel) _ hmem) (by decide)

/-- The lines of a listing are its header and its rows. -/
theorem lines_text {length : Nat}
    (h : ∀ n name, symbols.labelAt? n = some name → isLabelName name) :
    lines (text image symbols length) = headerLine :: rows image symbols length := by
  rw [text_eq, lines, ofLines, String.toList_ofList]
  apply Text.ended_flatMap (by rfl)
  intro cs hcs c hc
  refine beq_eq_false_iff_ne.2 ?_
  rintro rfl
  rcases List.mem_cons.1 hcs with rfl | hcs
  · exact absurd hc (by decide)
  · obtain ⟨a, _, rfl⟩ := List.mem_map.1 hcs
    exact newline_not_mem_line (h a.val) hc

/-! ## Words of a row -/

/-- Fields are parted by white space, in front of a column and behind it. -/
theorem words_stem_append (a : Address) (label : List Char) :
    Text.words (stem image a ++ label) =
      (Text.zeroPad 2 a.val).toList :: (image.read a).decimal.toList ::
        (Text.words (wordText (image.read a)).toList ++ Text.words label) := by
  have hword : ∀ {cs : List Char}, cs ≠ [] → (∀ c ∈ cs, isWordChar c) → Text.words cs = [cs] :=
    fun hne h => Text.words_eq_singleton hne fun c hc => isSpace_of_isWordChar (h c hc)
  have hnumber := Grammar.isNumber_zeroPad 2 a.val
  have haddress := hword hnumber.1 hnumber.isWordChar
  have hliteral := Grammar.isLiteral_decimal (image.read a)
  have hdecimal := hword hliteral.ne_nil hliteral.isWordChar
  have hfill := Text.isSpace_of_mem_fill
  have hgap : ∀ c ∈ "  ".toList, Text.isSpace c := hfill 2
  have hfields : stem image a ++ label =
      "  ".toList ++ ((Text.zeroPad 2 a.val).toList ++
        (("  ".toList ++ (Text.fill (4 - (image.read a).decimal.length) ' ').toList) ++
          ((image.read a).decimal.toList ++ ("  ".toList ++
            ((wordText (image.read a)).toList ++
              (((Text.fill (11 - (wordText (image.read a)).length) ' ').toList ++ "  ".toList) ++
                label)))))) := by
    simp only [stem, Text.alignRight, Text.alignLeft, String.toList_append, List.append_assoc]
  rw [hfields, Text.words_blanks_append hgap,
    Text.words_append_blanks (List.forall_mem_append.2 ⟨hgap, hfill _⟩) (by simp),
    Text.words_append_blanks hgap (by simp),
    Text.words_append_blanks (List.forall_mem_append.2 ⟨hfill _, hgap⟩) (by simp),
    haddress, hdecimal]
  rfl

/-- The assembly text of a word ends with a word that is no label. -/
theorem exists_words_wordText (w : Word) : ∃ ws last,
    Text.words (wordText w).toList = ws ++ [last] ∧ isLabelName (String.ofList last) = false := by
  have hspace : ∀ {cs : List Char}, (∀ c ∈ cs, isWordChar c) → ∀ c ∈ cs, Text.isSpace c = false :=
    fun h c hc => isSpace_of_isWordChar (h c hc)
  have hlabel : ∀ {cs : List Char}, ¬ Grammar.IsName cs →
      isLabelName (String.ofList cs) = false := fun h =>
    Bool.eq_false_iff.2 fun hname => h ((Grammar.isLabelName_iff _).1 hname)
  rcases Grammar.toList_wordText_cases w with ⟨m, _, htext⟩ | ⟨m, cs, value, _, hcs, htext⟩
  · have hm := Grammar.isMnemonic_name m
    refine ⟨[], m.name.toList, ?_, hlabel fun hname => hname.2 m hm⟩
    rw [htext, Text.words_eq_singleton hm.1.ne_nil (hspace hm.1.isWordChar)]
    rfl
  · have hm := Grammar.isMnemonic_name m
    refine ⟨[m.name.toList], cs, ?_, hlabel fun hname => hname.1.not_isLiteral value hcs⟩
    rw [htext, Text.words_append_cons (by rfl),
      Text.words_eq_singleton hm.1.ne_nil (hspace hm.1.isWordChar),
      Text.words_eq_singleton hcs.ne_nil (hspace hcs.isWordChar)]

theorem words_labelName {name : String} (h : isLabelName name) :
    Text.words name.toList = [name.toList] :=
  Text.words_eq_singleton (isName_of_isLabelName h).1.ne_nil (isSpace_of_mem_labelName h)

/-! ## Reading a row -/

/-- What a row tells of a mailbox. -/
structure Entry where
  address : Nat
  word : Word
  label : Option String
  deriving DecidableEq, Repr

/-- Reads the words of a row: an address, a word, and its assembly text.  If the last word may be a
label, it is the label of the mailbox. -/
def Entry.ofWords? : List (List Char) → Option Entry
  | address :: word :: rest =>
    match Text.readCount? address, Text.readWord word with
    | some n, .ok w => some ⟨n, w, (rest.getLast?.map String.ofList).filter isLabelName⟩
    | _, _ => none
  | _ => none

/-- The words of a row tell the address, the word and the label of its mailbox. -/
theorem ofWords?_line {a : Address}
    (h : ∀ name, symbols.labelAt? a.val = some name → isLabelName name) :
    Entry.ofWords? (Text.words (line image symbols a)) =
      some ⟨a.val, image.read a, symbols.labelAt? a.val⟩ := by
  have haddress : Text.readCount? (Text.zeroPad 2 a.val).toList = some a.val :=
    (Grammar.readCount?_eq_some_iff_isCount _ _).2
      (.unsigned (Grammar.isNumber_zeroPad 2 a.val) (by omega))
  obtain ⟨ws, last, hws, hlast⟩ := exists_words_wordText (image.read a)
  rw [line, words_stem_append, hws]
  simp only [Entry.ofWords?, haddress, Text.readWord_decimal]
  cases hlabel : symbols.labelAt? a.val with
  | none =>
    have hnone : Text.words ((none : Option String).getD "").toList = [] := by simp [Text.words]
    rw [hnone, List.append_nil, List.getLast?_concat, Option.map_some,
      Option.filter_some_neg (by simp [hlast])]
  | some name =>
    have hname := h name hlabel
    rw [Option.getD_some, words_labelName hname, List.getLast?_concat, Option.map_some,
      String.ofList_toList, Option.filter_some_pos hname]

/-- A wide word, and a label behind an instruction without an address. -/
example : Entry.ofWords? (Text.words "  07  -12345  DAT -12345   ".toList) =
      some ⟨7, .clamp (-12345), none⟩ ∧
    Entry.ofWords? (Text.words "  08   902  OUT          show".toList) =
      some ⟨8, 902, some "show"⟩ := by
  decide +kernel

end Listing

/-! ## Programs -/

namespace Program

variable {source : String} {p : Program} {ss : List Statement}

theorem Represents.length_le (h : p.Represents ss) : p.length ≤ 100 :=
  h.length_eq ▸ h.holds.length_le

/-- Behind its last statement a program has zeros. -/
theorem Represents.read_eq_zero (h : p.Represents ss) {a : Address} (ha : p.length ≤ a.val) :
    p.image.read a = 0 :=
  h.holds.zero a (h.length_eq ▸ ha)

/-- Behind its last statement a program has no labels. -/
theorem Represents.labelAt?_eq_none (h : p.Represents ss) {n : Nat} (hn : p.length ≤ n) :
    p.symbols.labelAt? n = none := by
  refine Option.eq_none_iff_forall_ne_some.2 fun name hname => ?_
  have hlt := ((h.fits.labelAt?_iff n name).1 hname).lt
  exact absurd hlt (Nat.not_lt.2 (h.length_eq ▸ hn))

/-- A statement has one label at most, so tables tell as much by address as by name. -/
theorem Represents.address?_eq_some_iff (h : p.Represents ss) (name : String) (n : Nat) :
    p.symbols.address? name = some n ↔ p.symbols.labelAt? n = some name := by
  rw [h.fits.address?_iff, h.fits.labelAt?_iff]

/-- The labels of a program are words that may be labels. -/
theorem isLabelName_of_labelAt? (h : assemble source = .ok p) (n : Nat) (name : String)
    (hname : p.symbols.labelAt? n = some name) : isLabelName name := by
  obtain ⟨ss, hparse, hss⟩ := exists_parse_of_assemble h
  have hfits := (represents_of_ofStatements hss).fits
  obtain ⟨s, label, hs, hlabel, rfl⟩ := (hfits.labelAt?_iff n name).1 hname
  exact Statement.isLabelName_of_mem hparse (List.mem_of_getElem? hs) hlabel

/-- The listing of a program. -/
def listing (p : Program) : String :=
  Listing.text p.image p.symbols p.length

/-- Programs with the same words and the same labels. -/
structure Same (p q : Program) : Prop where
  length_eq : p.length = q.length
  image_eq : p.image = q.image
  address?_eq : ∀ name, p.symbols.address? name = q.symbols.address? name
  labelAt?_eq : ∀ n, p.symbols.labelAt? n = q.symbols.labelAt? n

theorem lines_listing (h : assemble source = .ok p) :
    Listing.lines p.listing =
      Listing.headerLine :: Listing.rows p.image p.symbols p.length :=
  Listing.lines_text (isLabelName_of_labelAt? h)

theorem length_lines_listing (h : assemble source = .ok p) :
    (Listing.lines p.listing).length = p.length + 1 := by
  obtain ⟨ss, _, hss⟩ := exists_parse_of_assemble h
  rw [lines_listing h, List.length_cons,
    Listing.length_rows (represents_of_ofStatements hss).length_le]

/-- The row of a mailbox stands behind the header and the rows before it. -/
theorem exists_entry (h : assemble source = .ok p) {a : Address} (ha : a.val < p.length) :
    ∃ line, (Listing.lines p.listing)[a.val + 1]? = some line ∧
      Listing.Entry.ofWords? (Text.words line) =
        some ⟨a.val, p.image.read a, p.symbols.labelAt? a.val⟩ := by
  refine ⟨Listing.line p.image p.symbols a, ?_,
    Listing.ofWords?_line (isLabelName_of_labelAt? h a.val)⟩
  rw [lines_listing h, List.getElem?_cons_succ, Listing.getElem?_rows ha]

/-- Rows that are alike tell of words and labels that are alike. -/
theorem same_of_entries {ts : List Statement} {q : Program} (hp : p.Represents ss)
    (hq : q.Represents ts) (hlength : p.length = q.length)
    (hentries : ∀ a : Address, a.val < p.length →
      p.image.read a = q.image.read a ∧ p.symbols.labelAt? a.val = q.symbols.labelAt? a.val) :
    p.Same q := by
  have hlabels : ∀ n, p.symbols.labelAt? n = q.symbols.labelAt? n := by
    intro n
    by_cases hn : n < p.length
    · exact (hentries ⟨n, Nat.lt_of_lt_of_le hn hp.length_le⟩ hn).2
    · rw [hp.labelAt?_eq_none (Nat.le_of_not_lt hn),
        hq.labelAt?_eq_none (hlength ▸ Nat.le_of_not_lt hn)]
  refine ⟨hlength, Image.ext_read fun a => ?_, fun name => Option.ext fun n => ?_, hlabels⟩
  · by_cases ha : a.val < p.length
    · exact (hentries a ha).1
    · rw [hp.read_eq_zero (Nat.le_of_not_lt ha),
        hq.read_eq_zero (hlength ▸ Nat.le_of_not_lt ha)]
  · rw [hp.address?_eq_some_iff, hq.address?_eq_some_iff, hlabels]

theorem same_of_listing_eq {other : String} {q : Program} (hp : assemble source = .ok p)
    (hq : assemble other = .ok q) (h : p.listing = q.listing) : p.Same q := by
  obtain ⟨ss, _, hss⟩ := exists_parse_of_assemble hp
  obtain ⟨ts, _, hts⟩ := exists_parse_of_assemble hq
  have hlength : p.length = q.length := by
    have hcount := length_lines_listing hp
    rw [h, length_lines_listing hq] at hcount
    exact (Nat.succ.inj hcount).symm
  refine same_of_entries (represents_of_ofStatements hss) (represents_of_ofStatements hts) hlength
    fun a ha => ?_
  obtain ⟨line, hline, hentry⟩ := exists_entry hp ha
  obtain ⟨line', hline', hentry'⟩ := exists_entry hq (hlength ▸ ha)
  rw [h, hline'] at hline
  obtain rfl := Option.some.inj hline
  rw [hentry'] at hentry
  injection hentry with hentry
  injection hentry with _ hword hlabel
  exact ⟨hword.symm, hlabel.symm⟩

/-- A listing has a header and a row for each mailbox of the program, the words of a row tell what
is in its mailbox, and so a listing tells all of the program. -/
theorem listing_loses_nothing (hp : assemble source = .ok p) :
    (Listing.lines p.listing).length = p.length + 1 ∧
      (∀ a : Address, a.val < p.length →
        ∃ line, (Listing.lines p.listing)[a.val + 1]? = some line ∧
          Listing.Entry.ofWords? (Text.words line) =
            some ⟨a.val, p.image.read a, p.symbols.labelAt? a.val⟩) ∧
      ∀ other q, assemble other = .ok q → p.listing = q.listing → p.Same q :=
  ⟨length_lines_listing hp, fun _ ha => exists_entry hp ha,
    fun _ _ hq h => same_of_listing_eq hp hq h⟩

/-- A label and its address in digits are listed alike. -/
theorem listing_loses_nothing_branch :
    ∃ p q, (assemble "top IN\n BR top\n DAT -12345" = .ok p ∧
        assemble "top in\n\n bra 00 ; again\n dat -12345" = .ok q) ∧
      (Listing.lines p.listing).length = 4 ∧ p.listing = q.listing ∧ p.Same q := by
  let p : Program :=
    ⟨Image.ofList [901, 600, .clamp (-12345)], SymbolTable.ofList [("top", 0)], 3⟩
  have hp : assemble "top IN\n BR top\n DAT -12345" = .ok p := by decide +kernel
  have hq : assemble "top in\n\n bra 00 ; again\n dat -12345" = .ok p := by decide +kernel
  obtain ⟨hlines, _, hsame⟩ := listing_loses_nothing hp
  exact ⟨p, p, ⟨hp, hq⟩, hlines, rfl, hsame _ p hq rfl⟩

end Program

end Mailbox
