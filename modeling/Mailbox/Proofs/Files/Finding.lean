import Mathlib.Data.List.Basic
import Mailbox.Proofs.Files.Search
set_option autoImplicit false

/-!
# What a search finds

Which paths on a disk a pattern stands for, said apart from how they are looked up.  Main
statement: a search that succeeds finds those paths and no others.
-/

namespace Mailbox

/-- A piece of a pattern matches a name. -/
inductive PatternPiece.Matches : PatternPiece → String → Prop
  | literal (name : String) : Matches (.literal name) name
  | wildcard {parts : List PatternPart} {name : String} :
      PatternPart.Matches parts name.toList → Matches (.wildcard parts) name
  | anyFolders (name : String) : Matches .anyFolders name

theorem PatternPiece.matchName_iff (piece : PatternPiece) (name : String) :
    piece.matchName name = true ↔ piece.Matches name := by
  cases piece with
  | literal own =>
    rw [matchName, beq_iff_eq]
    constructor
    · rintro rfl
      exact .literal own
    · rintro ⟨⟩
      rfl
  | wildcard parts =>
    rw [matchName, PatternPart.matchName_iff]
    constructor
    · exact .wildcard
    · rintro ⟨⟩
      assumption
  | anyFolders => exact ⟨fun _ => .anyFolders name, fun _ => rfl⟩

namespace Disk

variable {disk : Disk} {s : Spot} {path : String} {paths : List String}

/-! ## What is in folders -/

/-- Something is listed at a place or below it. -/
def Lists (disk : Disk) (place : Place) : Prop :=
  ∃ p ∈ disk.nodes, place <+: p.1

/-- A spot is that of a name in the folder at another spot. -/
inductive Holds (disk : Disk) (s : Spot) : Spot → Prop
  | name (name : String) : s.isFolder → name ≠ ".." → name ≠ "/" →
      disk.Lists (s.place ++ [name]) →
      Holds disk s ⟨s.below name, s.place ++ [name], disk.at? (s.place ++ [name]) = some .folder⟩

/-- A spot is in a folder, or in a folder below it. -/
inductive HoldsBelow (disk : Disk) : Spot → Spot → Prop
  | here {s child : Spot} : disk.Holds s child → HoldsBelow disk s child
  | deeper {s child last : Spot} : disk.Holds s child → HoldsBelow disk child last →
      HoldsBelow disk s last

theorem concat_prefix_iff {folder place : Place} {name : String} :
    folder ++ [name] <+: place ↔ folder <+: place ∧ place[folder.length]? = some name := by
  constructor
  · rintro ⟨rest, rfl⟩
    exact ⟨⟨name :: rest, by simp⟩, by simp⟩
  · rintro ⟨⟨rest, rfl⟩, hname⟩
    cases rest with
    | nil => simp at hname
    | cons next rest =>
      obtain rfl : next = name := by simpa using hname
      exact ⟨rest, by simp⟩

theorem nextName?_eq_some_iff {folder place : Place} {name : String} :
    nextName? folder place = some name ↔ folder ++ [name] <+: place ∧ name ≠ ".." ∧ name ≠ "/" := by
  rw [nextName?, concat_prefix_iff]
  split
  case isTrue h => simp [Option.filter_eq_some_iff, List.isPrefixOf_iff_prefix.1 h]
  case isFalse h => simp [mt List.isPrefixOf_iff_prefix.2 h]

theorem mem_names_iff {folder : Place} {name : String} :
    name ∈ disk.names folder ↔ name ≠ ".." ∧ name ≠ "/" ∧ disk.Lists (folder ++ [name]) := by
  rw [names, List.mem_mergeSort, List.mem_eraseDups, List.mem_filterMap]
  simp only [nextName?_eq_some_iff, Lists]
  constructor
  · rintro ⟨p, hp, hbelow, hup, hroot⟩
    exact ⟨hup, hroot, p, hp, hbelow⟩
  · rintro ⟨hup, hroot, p, hp, hbelow⟩
    exact ⟨p, hp, hbelow, hup, hroot⟩

theorem mem_children_iff {spots : List Spot} (hfolder : s.isFolder)
    (h : disk.children s = .ok spots) {child : Spot} : child ∈ spots ↔ disk.Holds s child := by
  unfold Disk.children at h
  split at h
  case h_1 => cases h
  case h_2 =>
    cases h
    rw [List.mem_map]
    constructor
    · rintro ⟨name, hname, rfl⟩
      obtain ⟨hup, hroot, hlists⟩ := mem_names_iff.1 hname
      exact .name name hfolder hup hroot hlists
    · rintro ⟨name, -, hup, hroot, hlists⟩
      exact ⟨name, mem_names_iff.2 ⟨hup, hroot, hlists⟩, rfl⟩

theorem length_le_depth {p : Place × Node} (h : p ∈ disk.nodes) : p.1.length ≤ disk.depth := by
  have hmem : p.1.length ∈ disk.nodes.map fun p => p.1.length := List.mem_map.2 ⟨p, h, rfl⟩
  unfold depth
  cases hmax : (disk.nodes.map fun p => p.1.length).max? with
  | none =>
    rw [List.max?_eq_none_iff.1 hmax] at hmem
    cases hmem
  | some longest =>
    have hle := (List.max?_eq_some_iff.1 hmax).2 _ hmem
    rw [List.foldl_max, hmax, Option.getD_some]
    omega

/-- A spot in a folder is one name further down, and the disk has names that deep. -/
theorem Holds.length_place {child : Spot} (h : disk.Holds s child) :
    child.place.length = s.place.length + 1 ∧ child.place.length ≤ disk.depth := by
  obtain ⟨name, -, -, -, p, hp, hbelow⟩ := h
  exact ⟨List.length_append, Nat.le_trans hbelow.length_le (length_le_depth hp)⟩

/-! ## Searching below a folder -/

/-- What is below a folder is in it, or below what is in it. -/
theorem exists_holdsBelow_iff {P : Spot → Prop} :
    (∃ last, disk.HoldsBelow s last ∧ P last) ↔
      ∃ child, disk.Holds s child ∧ (P child ∨ ∃ last, disk.HoldsBelow child last ∧ P last) := by
  constructor
  · rintro ⟨last, hlast | ⟨hchild, hbelow⟩, hP⟩
    · exact ⟨last, hlast, .inl hP⟩
    · exact ⟨_, hchild, .inr ⟨last, hbelow, hP⟩⟩
  · rintro ⟨child, hchild, hP | ⟨last, hbelow, hP⟩⟩
    · exact ⟨child, .here hchild, hP⟩
    · exact ⟨last, .deeper hchild hbelow, hP⟩

theorem not_holds_of_not_isFolder (h : s.isFolder = false) (child : Spot) :
    ¬ disk.Holds s child := by
  rintro ⟨name, hfolder, -⟩
  rw [h] at hfolder
  cases hfolder

/-- What is found below a folder is what is found at the spots below it, if the search goes down as
far as the disk has names. -/
theorem mem_findBelow {found : Spot → Except SearchFault (List String)} {P : Spot → Prop}
    (hfound : ∀ s paths, found s = .ok paths → (path ∈ paths ↔ P s)) {depth : Nat}
    (hdepth : disk.depth ≤ s.place.length + depth)
    (h : disk.findBelow found depth s = .ok paths) :
    path ∈ paths ↔ ∃ last, disk.HoldsBelow s last ∧ P last := by
  induction depth generalizing s paths with
  | zero =>
    cases h
    have hnone : ∀ child, ¬ disk.Holds s child := by
      intro child hchild
      have := hchild.length_place
      omega
    rw [exists_holdsBelow_iff]
    simp [hnone]
  | succ depth ih =>
    rw [exists_holdsBelow_iff]
    rw [findBelow] at h
    split at h
    case isTrue hfolder =>
      obtain ⟨spots, hspots, h⟩ := except_bind_eq_ok.1 h
      obtain ⟨here, hhere, h⟩ := except_bind_eq_ok.1 h
      cases h
      have hmem (child : Spot) : child ∈ spots ↔ disk.Holds _ child :=
        mem_children_iff hfolder hspots
      have hone : ∀ child ∈ spots, ∀ paths,
          (do return (← found child) ++ (← disk.findBelow found depth child)) = .ok paths →
          (path ∈ paths ↔ P child ∨ ∃ last, disk.HoldsBelow child last ∧ P last) := by
        intro child hchild paths hpaths
        obtain ⟨own, hown, hpaths⟩ := except_bind_eq_ok.1 hpaths
        obtain ⟨below, hbelow, hpaths⟩ := except_bind_eq_ok.1 hpaths
        cases hpaths
        have hplace := ((hmem child).1 hchild).length_place
        rw [List.mem_append, hfound child own hown, ih (by omega) hbelow]
      rw [mem_flatten_of_mapM hhere hone]
      simp only [hmem]
    case isFalse hfolder =>
      cases h
      simp [not_holds_of_not_isFolder (Bool.eq_false_iff.2 hfolder)]

/-! ## Searching along a pattern -/

/-- A piece with wildcards finds the names that every folder has only if it starts with a dot. -/
inductive FindsSpecial : List PatternPart → String → Prop
  | dot {parts : List PatternPart} {name : String} : isSpecial name →
      PatternPart.Matches (.char '.' :: parts) name.toList →
      FindsSpecial (.char '.' :: parts) name

theorem mem_specialMatches_iff {parts : List PatternPart} {name : String} :
    name ∈ specialMatches parts ↔ FindsSpecial parts name := by
  unfold specialMatches
  split
  case h_1 parts =>
    rw [List.mem_filter, PatternPart.matchName_iff]
    constructor
    · rintro ⟨hname, hmatch⟩
      refine .dot ?_ hmatch
      rw [isSpecial, Bool.or_eq_true, beq_iff_eq, beq_iff_eq]
      simpa [or_comm] using hname
    · rintro ⟨hname, hmatch⟩
      rw [isSpecial, Bool.or_eq_true, beq_iff_eq, beq_iff_eq] at hname
      exact ⟨by simpa [or_comm] using hname, hmatch⟩
  case h_2 hdot =>
    constructor
    · intro hmem
      cases hmem
    · rintro ⟨hname, hmatch⟩
      exact absurd rfl (hdot _)

/-- The pieces of a pattern lead from a spot to a path. -/
inductive Finds (disk : Disk) (onlyFolders : Bool) : List PatternPiece → Spot → String → Prop
  | done {s : Spot} : (onlyFolders → s.isFolder) → Finds disk onlyFolders [] s s.path
  | literal {name : String} {ps : List PatternPiece} {s : Spot} {path : String} : s.isFolder →
      (isSpecial name ∨ pathFault? (s.below name) = none ∧ (disk.at? (s.place.enter name)).isSome) →
      Finds disk onlyFolders ps (disk.spot (s.below name) (s.place.enter name)) path →
      Finds disk onlyFolders (.literal name :: ps) s path
  | special {parts : List PatternPart} {name : String} {ps : List PatternPiece} {s : Spot}
      {path : String} : s.isFolder → FindsSpecial parts name →
      Finds disk onlyFolders ps (disk.spot (Path.join s.path name) (s.place.enter name)) path →
      Finds disk onlyFolders (.wildcard parts :: ps) s path
  | wildcard {parts : List PatternPart} {ps : List PatternPiece} {s child : Spot}
      {path : String} : disk.Holds s child → PatternPart.Matches parts child.name.toList →
      Finds disk onlyFolders ps child path → Finds disk onlyFolders (.wildcard parts :: ps) s path
  | folders {s last : Spot} : disk.HoldsBelow s last → last.isFolder →
      Finds disk onlyFolders [.anyFolders] s last.path
  | anywhere {p : PatternPiece} {ps : List PatternPiece} {s last : Spot} {path : String} :
      disk.HoldsBelow s last → p.Matches last.name → Finds disk onlyFolders ps last path →
      Finds disk onlyFolders (.anyFolders :: p :: ps) s path

variable {onlyFolders : Bool} {ps : List PatternPiece}

theorem finds_nil_iff :
    disk.Finds onlyFolders [] s path ↔ (onlyFolders → s.isFolder) ∧ path = s.path := by
  constructor
  · rintro ⟨hfolder⟩
    exact ⟨hfolder, rfl⟩
  · rintro ⟨hfolder, rfl⟩
    exact .done hfolder

theorem finds_literal_iff {name : String} :
    disk.Finds onlyFolders (.literal name :: ps) s path ↔
      (s.isFolder ∧ (isSpecial name ∨
        pathFault? (s.below name) = none ∧ (disk.at? (s.place.enter name)).isSome)) ∧
      disk.Finds onlyFolders ps (disk.spot (s.below name) (s.place.enter name)) path := by
  constructor
  · rintro (_ | ⟨hfolder, hthere, hrest⟩)
    exact ⟨⟨hfolder, hthere⟩, hrest⟩
  · rintro ⟨⟨hfolder, hthere⟩, hrest⟩
    exact .literal hfolder hthere hrest

theorem finds_wildcard_iff {parts : List PatternPart} :
    disk.Finds onlyFolders (.wildcard parts :: ps) s path ↔
      (∃ name, (s.isFolder ∧ FindsSpecial parts name) ∧
        disk.Finds onlyFolders ps (disk.spot (Path.join s.path name) (s.place.enter name)) path) ∨
      ∃ child, (disk.Holds s child ∧ PatternPart.Matches parts child.name.toList) ∧
        disk.Finds onlyFolders ps child path := by
  constructor
  · rintro (_ | _ | ⟨hfolder, hname, hrest⟩ | ⟨hchild, hmatch, hrest⟩)
    · exact .inl ⟨_, ⟨hfolder, hname⟩, hrest⟩
    · exact .inr ⟨_, ⟨hchild, hmatch⟩, hrest⟩
  · rintro (⟨name, ⟨hfolder, hname⟩, hrest⟩ | ⟨child, ⟨hchild, hmatch⟩, hrest⟩)
    · exact .special hfolder hname hrest
    · exact .wildcard hchild hmatch hrest

theorem finds_folders_iff :
    disk.Finds onlyFolders [.anyFolders] s path ↔
      ∃ last, disk.HoldsBelow s last ∧ last.isFolder ∧ path = last.path := by
  constructor
  · rintro (_ | _ | _ | _ | ⟨hbelow, hfolder⟩)
    exact ⟨_, hbelow, hfolder, rfl⟩
  · rintro ⟨last, hbelow, hfolder, rfl⟩
    exact .folders hbelow hfolder

theorem finds_anywhere_iff {p : PatternPiece} :
    disk.Finds onlyFolders (.anyFolders :: p :: ps) s path ↔
      ∃ last, disk.HoldsBelow s last ∧ p.Matches last.name ∧
        disk.Finds onlyFolders ps last path := by
  constructor
  · rintro (_ | _ | _ | _ | _ | ⟨hbelow, hmatch, hrest⟩)
    exact ⟨_, hbelow, hmatch, hrest⟩
  · rintro ⟨last, hbelow, hmatch, hrest⟩
    exact .anywhere hbelow hmatch hrest

theorem mem_matchesFrom {pieces : List PatternPiece}
    (h : disk.matchesFrom onlyFolders pieces s = .ok paths) :
    path ∈ paths ↔ disk.Finds onlyFolders pieces s path := by
  fun_induction matchesFrom disk onlyFolders pieces s generalizing paths with
  | case1 s =>
    cases h
    rw [finds_nil_iff]
    cases onlyFolders <;> cases s.isFolder <;> simp
  | case2 name ps s next isThere hthere =>
    rename_i ih
    have hnext : s.isFolder ∧ (isSpecial name ∨
        pathFault? (s.below name) = none ∧ (disk.at? (s.place.enter name)).isSome) := by
      simpa [isThere, next, spot] using hthere
    rw [finds_literal_iff, ih h]
    exact (and_iff_right hnext).symm
  | case3 name ps s next isThere =>
    rename_i hthere
    have hnext : ¬ (s.isFolder ∧ (isSpecial name ∨
        pathFault? (s.below name) = none ∧ (disk.at? (s.place.enter name)).isSome)) := by
      simpa [isThere, next, spot] using hthere
    cases h
    rw [finds_literal_iff]
    simp [hnext]
  | case4 parts ps s hfolder ih =>
    obtain ⟨children, hchildren, h⟩ := except_bind_eq_ok.1 h
    obtain ⟨found, hfound, h⟩ := except_bind_eq_ok.1 h
    cases h
    rw [mem_flatten_of_mapM hfound fun next _ ys hys => ih next hys, finds_wildcard_iff]
    simp only [List.mem_append, List.mem_map, List.mem_filter, mem_specialMatches_iff,
      mem_children_iff hfolder hchildren, PatternPart.matchName_iff, or_and_right, exists_or,
      hfolder, true_and]
    refine or_congr_left ⟨?_, ?_⟩
    · rintro ⟨_, ⟨name, hname, rfl⟩, hrest⟩
      exact ⟨name, hname, hrest⟩
    · rintro ⟨name, hname, hrest⟩
      exact ⟨_, ⟨name, hname, rfl⟩, hrest⟩
  | case5 parts ps s hfolder =>
    cases h
    rw [finds_wildcard_iff]
    simp [hfolder, not_holds_of_not_isFolder (Bool.eq_false_iff.2 hfolder)]
  | case6 s =>
    rw [finds_folders_iff]
    refine mem_findBelow (fun last paths hpaths => ?_) (by omega) h
    cases hpaths
    cases last.isFolder <;> simp
  | case7 p ps s ih =>
    rw [finds_anywhere_iff]
    refine mem_findBelow (fun last paths hpaths => ?_) (by omega) h
    split at hpaths
    case isTrue hmatch => rw [ih last hpaths, ← PatternPiece.matchName_iff, hmatch]; simp
    case isFalse hmatch =>
      cases hpaths
      simp [← PatternPiece.matchName_iff, hmatch]

/-- A search that succeeds finds the paths that its pattern stands for, and no others. -/
theorem mem_search_iff {pattern : String} (h : disk.search pattern = .ok paths) :
    path ∈ paths ↔ ∃ pieces, patternPieces pattern = .ok pieces ∧
      disk.Finds (pattern.toList.getLast? == some '/') pieces
        (disk.spot (Path.base pattern) (start (Path.base pattern))) path := by
  unfold search at h
  split at h
  case h_1 => cases h
  case h_2 pieces hpieces =>
    rw [mem_matchesFrom h]
    constructor
    · intro hfinds
      exact ⟨pieces, hpieces, hfinds⟩
    · rintro ⟨pieces', hpieces', hfinds⟩
      rw [hpieces] at hpieces'
      cases hpieces'
      exact hfinds

end Disk

end Mailbox
