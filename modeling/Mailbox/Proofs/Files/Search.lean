import Mathlib.Data.List.Basic
import Mathlib.Data.List.Induction
import Mailbox.Files.Search
import Mailbox.Proofs.Files.Disk
set_option autoImplicit false

/-!
# Searching for a plain path

A path without wildcards that only goes down from folder to folder is a pattern for itself.  Main
statement: where there is something under such a path, a search for the path finds it and nothing
else.
-/

namespace Mailbox

/-! ## Patterns without wildcards -/

/-- A character that stands for itself in a pattern. -/
structure PatternPart.IsOrdinary (c : Char) : Prop where
  ne_question : c ≠ '?'
  ne_star : c ≠ '*'
  ne_bracket : c ≠ '['

namespace PatternPart

instance (c : Char) : Decidable (IsOrdinary c) :=
  decidable_of_iff (c ≠ '?' ∧ c ≠ '*' ∧ c ≠ '[')
    ⟨fun ⟨hq, hs, hb⟩ => ⟨hq, hs, hb⟩, fun h => ⟨h.ne_question, h.ne_star, h.ne_bracket⟩⟩

variable {cs : List Char}

theorem readFrom_of_ordinary (h : ∀ c ∈ cs, IsOrdinary c) (position : Nat) (before : Option Char) :
    readFrom position before cs = .ok (cs.map .char) := by
  induction cs generalizing position before with
  | nil => rw [readFrom, List.map_nil]
  | cons c cs ih =>
    obtain ⟨hc, hcs⟩ := List.forall_mem_cons.1 h
    rw [readFrom, ih hcs]
    · rfl
    · exact hc.ne_question
    · exact fun _ hstar => absurd hstar hc.ne_star
    · exact fun _ hstar => absurd hstar hc.ne_star
    · exact hc.ne_star
    · exact fun _ hbracket => absurd hbracket hc.ne_bracket
    · exact hc.ne_bracket

theorem literal?_map_char (cs : List Char) : PatternPiece.literal? (cs.map .char) = some cs := by
  induction cs with
  | nil => rfl
  | cons c cs ih => rw [List.map_cons, PatternPiece.literal?, ih, Option.map_some]

/-- A piece without wildcards stands for its own text. -/
theorem ofParts_map_char (cs : List Char) :
    PatternPiece.ofParts (cs.map .char) = .literal (String.ofList cs) := by
  have hparts : cs.map PatternPart.char ≠ [.anyFolders] := by
    cases cs <;> simp
  rw [PatternPiece.ofParts, if_neg hparts, literal?_map_char]

end PatternPart

namespace Path

/-! ## Names on the way down -/

/-- What a path consists of, behind the slash of the root if it starts there. -/
def unrooted (path : String) : List Char :=
  if isAbsolute path then path.toList.drop 1 else path.toList

/-- The root of a path, as text. -/
def root (path : String) : String :=
  if isAbsolute path then "/" else ""

/-- The names on a path. -/
def names (path : String) : List String :=
  (Text.separated (· == '/') (unrooted path)).map String.ofList

/-- A path that a pattern spells out: there are no wildcards in it, and each of its names leads
down. -/
structure IsSpelled (path : String) : Prop where
  ordinary : ∀ c ∈ path.toList, PatternPart.IsOrdinary c
  plain : ∀ name ∈ names path, IsPlain name

instance (piece : String) : Decidable (IsPlain piece) :=
  decidable_of_iff (isIdle piece = false ∧ piece ≠ "..")
    ⟨fun ⟨hidle, hup⟩ => ⟨hidle, hup⟩, fun h => ⟨h.not_idle, h.ne_up⟩⟩

theorem isSpelled_iff (path : String) :
    (path.toList.all fun c => decide (PatternPart.IsOrdinary c)) ∧
        ((names path).all fun name => decide (IsPlain name)) ↔ IsSpelled path := by
  simp only [List.all_eq_true, decide_eq_true_eq]
  exact ⟨fun ⟨hordinary, hplain⟩ => ⟨hordinary, hplain⟩, fun h => ⟨h.ordinary, h.plain⟩⟩

instance (path : String) : Decidable (IsSpelled path) :=
  decidable_of_iff _ (isSpelled_iff path)

/-- A name in a folder: not empty, no dots alone, and without slashes. -/
structure IsName (name : String) : Prop extends IsPlain name where
  no_slash : '/' ∉ name.toList

theorem root_eq (path : String) : root path = "" ∨ root path = "/" := by
  unfold root
  split
  · exact .inr rfl
  · exact .inl rfl

theorem toList_eq (path : String) : path.toList = (root path).toList ++ unrooted path := by
  unfold root unrooted
  split
  · rename_i habsolute
    rw [isAbsolute, beq_iff_eq, List.head?_eq_some_iff] at habsolute
    obtain ⟨cs, hcs⟩ := habsolute
    rw [hcs]
    rfl
  · rfl

theorem names_ne_nil (path : String) : names path ≠ [] := by
  simp [names, Text.separated_ne_nil]

theorem no_slash_of_mem_names {path name : String} (h : name ∈ names path) :
    '/' ∉ name.toList := by
  obtain ⟨piece, hpiece, rfl⟩ := List.mem_map.1 h
  intro hmem
  rw [String.toList_ofList] at hmem
  exact absurd (Text.mem_of_mem_separated hpiece hmem).2 (by decide)

/-- The names of a path with slashes between them are the path again, behind its root. -/
theorem root_append_intercalate (path : String) :
    root path ++ "/".intercalate (names path) = path := by
  apply String.toList_injective
  have hnames : (names path).map String.toList = Text.separated (· == '/') (unrooted path) := by
    simp [names, Function.comp_def]
  rw [String.toList_append, String.toList_intercalate, hnames, toList_eq path]
  exact congrArg (_ ++ ·) (Text.intercalate_separated '/' (unrooted path))

/-- The names between the slashes start with an empty one if the path starts at the root. -/
theorem pieces_eq (path : String) :
    pieces path = if isAbsolute path then "" :: names path else names path := by
  have hlist := toList_eq path
  unfold pieces names
  rw [hlist]
  unfold root
  split
  · rfl
  · rfl

namespace IsName

variable {name : String} (h : IsName name)

include h

theorem ne_empty : name ≠ "" := by
  rintro rfl
  exact absurd h.not_idle (by decide)

/-- No name ends with a slash, whatever stands before it. -/
theorem back_append (front : String) : (front ++ name).back ≠ '/' := by
  have hne : name.toList ≠ [] := by simpa using h.ne_empty
  rw [String.back_eq, String.back?_eq, String.toList_append, List.getLast?_append,
    List.getLast?_eq_some_getLast hne, Option.some_or, Option.getD_some]
  intro hlast
  exact h.no_slash (hlast ▸ List.getLast_mem hne)

end IsName

/-! ## Paths as a search writes them -/

/-- The path of a name below a path.  Below the starting folder it is the name alone. -/
def below (path name : String) : String :=
  if isHere path then name else join path name

/-- Where a search for a path starts. -/
def base (path : String) : String :=
  if isAbsolute path then "/" else "."

theorem below_base (path name : String) : below (base path) name = root path ++ name := by
  unfold base root
  split
  · have hroot : isHere "/" = false := by decide +kernel
    have hslash : ("/" == "" || "/".back == '/') = true := by decide +kernel
    rw [below, hroot, join, hslash]
    rfl
  · have hhere : isHere "." = true := by decide +kernel
    rw [below, hhere, if_pos rfl, String.empty_append]

/-- A path that ends with a name. -/
def EndsIn (path name : String) : Prop :=
  path = name ∨ ∃ folder, path = folder ++ "/" ++ name

namespace EndsIn

variable {path last : String} (h : EndsIn path last) (hlast : IsName last)

include h

theorem exists_append : ∃ front, path = front ++ last := by
  rcases h with rfl | ⟨folder, rfl⟩
  · exact ⟨"", by simp⟩
  · exact ⟨folder ++ "/", rfl⟩

include hlast

theorem mem_pieces : last ∈ pieces path := by
  have hpiece : Text.separated (· == '/') last.toList = [last.toList] :=
    Text.separated_eq_singleton fun c hc => beq_eq_false_iff_ne.2 fun heq =>
      hlast.no_slash (heq ▸ hc)
  refine List.mem_map.2 ⟨last.toList, ?_, String.ofList_toList⟩
  rcases h with rfl | ⟨folder, rfl⟩
  · rw [hpiece]
    exact List.mem_cons_self
  · have hlist : (folder ++ "/" ++ last).toList = folder.toList ++ '/' :: last.toList := by simp
    rw [hlist, Text.separated_append_cons (by rfl), hpiece]
    exact List.mem_append_right _ List.mem_cons_self

theorem ne_empty : path ≠ "" := by
  obtain ⟨front, rfl⟩ := h.exists_append
  intro hempty
  exact hlast.ne_empty (String.append_eq_empty_iff.1 hempty).2

/-- Below a path that ends with a name there is a slash in front of the next one. -/
theorem below_eq (name : String) : below path name = path ++ "/" ++ name := by
  have hhere : isHere path = false := by
    refine Bool.eq_false_iff.2 fun hhere => ?_
    have hidle := List.all_eq_true.1 (Bool.and_eq_true_iff.1 hhere).2 last (h.mem_pieces hlast)
    rw [hlast.not_idle] at hidle
    cases hidle
  have hback : path.back ≠ '/' := by
    obtain ⟨front, rfl⟩ := h.exists_append
    exact hlast.back_append front
  have hslash : (path == "" || path.back == '/') = false :=
    Bool.or_eq_false_iff.2 ⟨beq_false_of_ne (h.ne_empty hlast), beq_false_of_ne hback⟩
  rw [below, hhere, join, hslash]
  rfl

end EndsIn

variable {front : List String}

theorem endsIn_intercalate {root : String} (hroot : root = "" ∨ root = "/") (front : List String)
    (last : String) : EndsIn (root ++ "/".intercalate (front ++ [last])) last := by
  cases front with
  | nil =>
    rw [List.nil_append, String.intercalate_singleton]
    rcases hroot with rfl | rfl
    · exact .inl (by simp)
    · exact .inr ⟨"", by simp⟩
  | cons first front =>
    refine .inr ⟨root ++ "/".intercalate (first :: front), ?_⟩
    rw [String.intercalate_append_of_ne_nil (List.cons_ne_nil _ _) (List.cons_ne_nil _ _),
      String.intercalate_singleton]
    simp only [String.append_assoc]

/-- A search that goes down along names writes them with slashes between them. -/
theorem foldl_below {base root : String} (hbase : ∀ name, below base name = root ++ name)
    (hroot : root = "" ∨ root = "/") (hne : front ≠ []) (h : ∀ name ∈ front, IsName name) :
    front.foldl below base = root ++ "/".intercalate front := by
  induction front using List.reverseRecOn with
  | nil => exact absurd rfl hne
  | append_singleton front name ih =>
    rw [List.foldl_append, List.foldl_cons, List.foldl_nil]
    rcases List.eq_nil_or_concat' front with rfl | ⟨before, last, rfl⟩
    · rw [List.foldl_nil, hbase, List.nil_append, String.intercalate_singleton]
    · have hlast : IsName last := h last (by simp)
      have hsome : before ++ [last] ≠ [] := by simp
      have hjoin := String.intercalate_append_of_ne_nil (s := "/") hsome (List.cons_ne_nil name [])
      rw [ih hsome fun name hname => h name (List.mem_append_left _ hname),
        (endsIn_intercalate hroot before last).below_eq hlast, hjoin, String.intercalate_singleton]
      simp only [String.append_assoc]

end Path

namespace Disk

variable {disk : Disk} {path : String}

/-! ## Pieces of a pattern -/

theorem mergeFolderPieces_literals (names : List String) :
    mergeFolderPieces (names.map .literal) = names.map .literal := by
  induction names with
  | nil => rw [List.map_nil, mergeFolderPieces]
  | cons name names ih =>
    rw [List.map_cons, mergeFolderPieces, ih]
    exact fun _ hfolders => by cases hfolders

theorem nil_not_mem_separated (h : Path.IsSpelled path) :
    [] ∉ Text.separated (· == '/') (Path.unrooted path) := by
  intro hmem
  have hempty : "" ∈ Path.names path := List.mem_map.2 ⟨[], hmem, rfl⟩
  exact absurd (h.plain _ hempty).not_idle (by decide)

/-- A piece of a path that a pattern spells out is read as it is. -/
theorem read_piece (h : Path.IsSpelled path) {piece : List Char}
    (hpiece : piece ∈ Text.separated (· == '/') (Path.unrooted path)) :
    (PatternPart.read piece).map PatternPiece.ofParts = .ok (.literal (String.ofList piece)) := by
  have hordinary : ∀ c ∈ piece, PatternPart.IsOrdinary c := by
    intro c hc
    refine h.ordinary c ?_
    rw [Path.toList_eq]
    exact List.mem_append_right _ (Text.mem_of_mem_separated hpiece hc).1
  rw [PatternPart.read, PatternPart.readFrom_of_ordinary hordinary]
  exact congrArg Except.ok (PatternPart.ofParts_map_char piece)

/-- A path that a pattern spells out has its own names for the pieces. -/
theorem patternPieces_of_isSpelled (h : Path.IsSpelled path) :
    patternPieces path = .ok ((Path.names path).map .literal) := by
  have hnil := nil_not_mem_separated h
  have hrest : (Path.unrooted path).isEmpty = false := by
    refine Bool.eq_false_iff.2 fun hempty => ?_
    rw [List.isEmpty_iff.1 hempty] at hnil
    exact hnil (by simp)
  have hpieces : (Text.separated (· == '/') (Path.unrooted path)).mapM
      (fun piece => (PatternPart.read piece).map PatternPiece.ofParts) =
        .ok ((Text.separated (· == '/') (Path.unrooted path)).map
          fun piece => .literal (String.ofList piece)) :=
    mapM_eq_ok fun piece hpiece => read_piece h hpiece
  have hread : PatternPart.read path.toList = .ok (path.toList.map .char) :=
    PatternPart.readFrom_of_ordinary h.ordinary 0 none
  have hmap : (Path.names path).map PatternPiece.literal =
      (Text.separated (· == '/') (Path.unrooted path)).map
        fun piece => .literal (String.ofList piece) := by
    rw [Path.names, List.map_map]
    rfl
  have hended := Text.ended_eq_separated hnil
  rw [← mergeFolderPieces_literals, hmap]
  show (do
    let _ ← PatternPart.read path.toList
    let pieces ← (Text.ended (· == '/') (Path.unrooted path)).mapM
      fun piece => (PatternPart.read piece).map PatternPiece.ofParts
    return mergeFolderPieces (if (Path.unrooted path).isEmpty then [.literal ""] else pieces)) = _
  rw [hread, hended, hpieces, hrest]
  rfl

/-! ## Going down -/

/-- A search along names goes down from folder to folder, where the way can be followed and no path
on it is too long. -/
theorem matchesFrom_literals {names : List String} {place last : Place}
    (hfollow : disk.follow place names = .ok last) (hlast : (disk.at? last).isSome)
    (hpath : ∀ front, front <+: names → pathFault? (front.foldl Path.below path) = none) :
    disk.matchesFrom false (names.map .literal) (disk.spot path place) =
      .ok [names.foldl Path.below path] := by
  induction names generalizing path place with
  | nil => rw [List.map_nil, matchesFrom]; rfl
  | cons name names ih =>
    obtain ⟨hplace, -, hrest⟩ := follow_cons_eq_ok.1 hfollow
    have hhere : pathFault? path = none := hpath [] List.nil_prefix
    have hbelow : pathFault? (Path.below path name) = none :=
      hpath [name] (List.prefix_append [name] names)
    have hthere : (disk.at? (place.enter name)).isSome := by
      cases names with
      | nil =>
        rw [Except.ok.inj hrest]
        exact hlast
      | cons next names =>
        rw [(follow_cons_eq_ok.1 hrest).1]
        rfl
    have hfolder : (disk.spot path place).isFolder = true := by
      simp [spot, hhere, hplace]
    have hpresent : ((pathFault? (Path.below path name)).isNone &&
        (disk.at? (place.enter name)).isSome) = true := by
      simp [hbelow, hthere]
    have hstep := ih hrest fun front hfront =>
      hpath (name :: front) ((List.prefix_cons_inj name).2 hfront)
    rw [List.map_cons, matchesFrom]
    refine (if_pos ?_).trans hstep
    rw [hfolder, Bool.true_and]
    exact Bool.or_eq_true_iff.2 (.inr hpresent)

theorem pathFault?_eq_none_iff :
    pathFault? path = none ↔ path ≠ "" ∧ path.utf8ByteSize < Path.tooLong := by
  unfold pathFault?
  split
  · simp_all
  · split <;> simp_all

/-- A path along some of the names is not longer than the one along all of them. -/
theorem pathFault?_of_prefix {root : String} (hroot : root = "" ∨ root = "/")
    {front names : List String} (hfront : front <+: names) (hne : front ≠ [])
    (hnames : ∀ name ∈ front, Path.IsName name)
    (h : pathFault? (root ++ "/".intercalate names) = none) :
    pathFault? (root ++ "/".intercalate front) = none := by
  obtain ⟨rest, rfl⟩ := hfront
  refine pathFault?_eq_none_iff.2 ⟨?_, ?_⟩
  · obtain ⟨before, last, rfl⟩ := (List.eq_nil_or_concat' front).resolve_left hne
    exact (Path.endsIn_intercalate hroot before last).ne_empty (hnames last (by simp))
  · have hsize := (pathFault?_eq_none_iff.1 h).2
    cases rest with
    | nil => rwa [List.append_nil] at hsize
    | cons next rest =>
      rw [String.intercalate_append_of_ne_nil hne (List.cons_ne_nil _ _)] at hsize
      simp only [String.utf8ByteSize_append] at hsize ⊢
      omega

/-- The empty name in front of a slash at the start leads nowhere. -/
theorem follow_names {place : Place} (h : disk.follow (start path) (Path.pieces path) = .ok place) :
    disk.follow (start path) (Path.names path) = .ok place := by
  rw [Path.pieces_eq] at h
  split at h
  · rename_i habsolute
    rw [start, if_pos habsolute] at h ⊢
    exact (follow_cons_eq_ok.1 h).2.2
  · exact h

theorem start_base (path : String) : start (Path.base path) = start path := by
  unfold Path.base start
  split
  · rw [if_pos (by decide +kernel)]
  · rw [if_neg (by decide +kernel)]

/-- A path without empty names does not end with a slash. -/
theorem getLast?_of_isSpelled (h : Path.IsSpelled path) :
    (path.toList.getLast? == some '/') = false := by
  refine beq_false_of_ne fun hlast => ?_
  have hnil := nil_not_mem_separated h
  cases hrest : (Path.unrooted path).getLast? with
  | none =>
    rw [List.getLast?_eq_none_iff.1 hrest] at hnil
    exact hnil (by simp)
  | some c =>
    rw [Path.toList_eq, List.getLast?_append, hrest, Option.some_or] at hlast
    exact hnil (Text.nil_mem_separated (hrest.trans hlast) (by rfl))

/-- A search for a path that is spelled out finds it alone, if there is something under it. -/
theorem search_of_find {node : Node} (hpath : Path.IsSpelled path)
    (hfind : disk.find path = .ok node) : disk.search path = .ok [path] := by
  obtain ⟨hsound, place, hfollow, hat⟩ := exists_place_of_find hfind
  have hplace : (disk.at? place).isSome := Option.isSome_of_eq_some hat
  have hnames : ∀ name ∈ Path.names path, Path.IsName name := fun name hname =>
    ⟨hpath.plain name hname, Path.no_slash_of_mem_names hname⟩
  have hway := follow_names hfollow
  rw [← start_base] at hway
  have hjoined {front : List String} (hfront : front <+: Path.names path) (hne : front ≠ []) :
      front.foldl Path.below (Path.base path) = Path.root path ++ "/".intercalate front :=
    Path.foldl_below (Path.below_base path) (Path.root_eq path) hne fun name hname =>
      hnames name (hfront.subset hname)
  have hsizes : ∀ front, front <+: Path.names path →
      pathFault? (front.foldl Path.below (Path.base path)) = none := by
    intro front hfront
    by_cases hne : front = []
    · rw [hne, List.foldl_nil, Path.base]
      split <;> decide +kernel
    · rw [hjoined hfront hne]
      refine pathFault?_of_prefix (Path.root_eq path) hfront hne
        (fun name hname => hnames name (hfront.subset hname)) ?_
      rwa [Path.root_append_intercalate]
  have hsearch := matchesFrom_literals hway hplace hsizes
  rw [hjoined (List.prefix_refl _) (Path.names_ne_nil path),
    Path.root_append_intercalate] at hsearch
  simp only [search, patternPieces_of_isSpelled hpath, getLast?_of_isSpelled hpath]
  exact hsearch

/-- The names on a path may be those of folders, and there may be a slash in front of them.  Dots
that lead nowhere go in a search. -/
example :
    let disk : Disk := { nodes := [(["a", "b.lmc"], .file .empty), (["/", "c.lmc"], .file .empty)] }
    disk.search "a/b.lmc" = .ok ["a/b.lmc"] ∧ disk.search "/c.lmc" = .ok ["/c.lmc"] ∧
      disk.search "./a/b.lmc" = .ok ["a/b.lmc"] := by
  decide +kernel

end Disk

end Mailbox
