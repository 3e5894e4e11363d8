import Mailbox.Files.Disk
import Mailbox.Proofs.Files.Path
import Mailbox.Proofs.Results
set_option autoImplicit false

/-!
# Writing files

A disk with a new file differs from the disk before at one place.  Main statements: nothing else
stands elsewhere, ways that could be followed still lead to the same places, the file that was
written is read back under its path, and files with another last name are read as before.  A file
that was made and then filled is as if it had been put there at once, and one that could not be
filled is the only one that has changed.
-/

namespace Mailbox

theorem Place.enter_of_isPlain (folder : Place) {name : String} (h : Path.IsPlain name) :
    folder.enter name = folder ++ [name] := by
  simp [enter, h.not_idle, h.ne_up]

theorem Place.isFixed_of_isPrefix {place above : Place} (h : above <+: place)
    (hfixed : place.isFixed) : above.isFixed := by
  simp only [isFixed, Bool.or_eq_true, List.all_eq_true, beq_iff_eq] at hfixed ⊢
  rcases hfixed with hup | rfl
  · exact .inl fun name hname => hup name (h.subset hname)
  · rcases List.prefix_cons_iff.1 h with rfl | ⟨rest, rfl, hrest⟩
    · exact .inl (by simp)
    · rw [List.prefix_nil.1 hrest]
      exact .inr rfl

namespace Disk

variable {disk : Disk} {folder place : Place} {name path : String}

/-! ## What stands elsewhere -/

/-- Whether a place is a folder because of where it is, or because something is listed below it. -/
def isImplied (disk : Disk) (place : Place) : Bool :=
  place.isFixed || disk.nodes.any fun p => place.isPrefixOf p.1

theorem at?_eq (disk : Disk) (place : Place) :
    disk.at? place = match disk.nodes.lookup place with
      | some node => some node
      | none => if disk.isImplied place then some .folder else none := rfl

/-- Putting something at a place lists this place and no other. -/
theorem any_put (disk : Disk) (place : Place) (node : Node) (q : Place → Bool) :
    ((disk.put place node).nodes.any fun p => q p.1) =
      ((disk.nodes.any fun p => q p.1) || q place) := by
  unfold put
  split
  case isTrue h =>
    -- The place is listed already, and what is listed there does not matter to `q`.
    have hkeys : (fun p : Place × Node => q (if p.1 = place then (place, node) else p).1) =
        fun p => q p.1 := by
      funext p
      split
      case isTrue hp => rw [hp]
      case isFalse => rfl
    obtain ⟨listed, hmem, hkey⟩ := List.lookup_isSome_iff.1 h
    have hplace : q place = true → (disk.nodes.any fun p => q p.1) = true := fun hq =>
      List.any_eq_true.2 ⟨listed, hmem, eq_of_beq hkey ▸ hq⟩
    rw [List.any_map, Function.comp_def, hkeys]
    cases hq : q place with
    | false => rw [Bool.or_false]
    | true => rw [hplace hq, Bool.or_true]
  case isFalse h => simp

/-- The way to a folder leads through folders. -/
theorem isImplied_of_folder {above : Place} (hfolder : disk.at? folder = some .folder)
    (h : above <+: folder) : disk.isImplied above = true := by
  rw [at?_eq] at hfolder
  rw [isImplied, Bool.or_eq_true, List.any_eq_true]
  split at hfolder
  case h_1 node hnode =>
    obtain ⟨p, hp, hkey⟩ := List.lookup_isSome_iff.1 (Option.isSome_of_eq_some hnode)
    exact .inr ⟨p, hp, List.isPrefixOf_iff_prefix.2 (eq_of_beq hkey ▸ h)⟩
  case h_2 hnone =>
    split at hfolder
    case isTrue himplied =>
      rw [isImplied, Bool.or_eq_true, List.any_eq_true] at himplied
      rcases himplied with hfixed | ⟨p, hp, hbelow⟩
      · exact .inl (Place.isFixed_of_isPrefix h hfixed)
      · exact .inr ⟨p, hp, List.isPrefixOf_iff_prefix.2
          (h.trans (List.isPrefixOf_iff_prefix.1 hbelow))⟩
    case isFalse => cases hfolder

theorem isImplied_put (hfolder : disk.at? folder = some .folder) (node : Node) {other : Place}
    (hother : other ≠ folder ++ [name]) :
    (disk.put (folder ++ [name]) node).isImplied other = disk.isImplied other := by
  have hput : (disk.put (folder ++ [name]) node).isImplied other =
      (disk.isImplied other || other.isPrefixOf (folder ++ [name])) := by
    rw [isImplied, any_put disk (folder ++ [name]) node (other.isPrefixOf ·), ← Bool.or_assoc]
    rfl
  rw [hput]
  cases hpre : other.isPrefixOf (folder ++ [name]) with
  | false => rw [Bool.or_false]
  | true =>
    -- What is above the new name is above its folder, where the way led through before.
    rcases List.prefix_concat_iff.1 (List.isPrefixOf_iff_prefix.1 hpre) with heq | habove
    · exact absurd heq hother
    · rw [isImplied_of_folder hfolder habove, Bool.true_or]

/-- Something new in a folder changes what stands at its place and nowhere else. -/
theorem at?_put (hfolder : disk.at? folder = some .folder) (node : Node) (other : Place) :
    (disk.put (folder ++ [name]) node).at? other =
      if other = folder ++ [name] then some node else disk.at? other := by
  by_cases hother : other = folder ++ [name]
  · rw [hother, at?_put_self, if_pos rfl]
  · rw [if_neg hother, at?_eq, at?_eq, lookup_put, if_neg hother,
      isImplied_put hfolder node hother]

/-! ## Ways -/

theorem requireFolder_eq_ok :
    disk.requireFolder place = .ok () ↔ disk.at? place = some .folder := by
  unfold requireFolder
  split <;> simp_all

theorem follow_append (disk : Disk) (place : Place) (names more : List String) :
    disk.follow place (names ++ more) =
      (disk.follow place names).bind fun between => disk.follow between more := by
  induction names generalizing place with
  | nil => rfl
  | cons name names ih =>
    simp only [List.cons_append, follow]
    cases disk.requireFolder place with
    | error fault => rfl
    | ok =>
      show (if _ then _ else _) = Except.bind (if _ then _ else _) _
      split
      · rfl
      · exact ih (place.enter name)

theorem follow_cons_eq_ok {names : List String} {last : Place} :
    disk.follow place (name :: names) = .ok last ↔
      disk.at? place = some .folder ∧ name.utf8ByteSize ≤ 255 ∧
        disk.follow (place.enter name) names = .ok last := by
  rw [follow, ← requireFolder_eq_ok]
  cases disk.requireFolder place with
  | error fault => simp [bind, Except.bind]
  | ok =>
    show (if _ then _ else _) = _ ↔ _
    split
    case isTrue hlong => simp; omega
    case isFalse hlong => simp [Nat.not_lt.1 hlong]

/-- Ways stay as they are when all folders stay. -/
theorem follow_of_folders {after : Disk} {last : Place} {names : List String}
    (hfolders : ∀ p, disk.at? p = some .folder → after.at? p = some .folder)
    (h : disk.follow place names = .ok last) : after.follow place names = .ok last := by
  induction names generalizing place with
  | nil => exact h
  | cons name names ih =>
    obtain ⟨hplace, hname, hrest⟩ := follow_cons_eq_ok.1 h
    exact follow_cons_eq_ok.2 ⟨hfolders place hplace, hname, ih hrest⟩

/-- The way to a name in a folder passes through the folder. -/
theorem follow_concat_eq_ok {names : List String} {last : Place} (hplain : Path.IsPlain name) :
    disk.follow place (names ++ [name]) = .ok last ↔
      ∃ folder, disk.follow place names = .ok folder ∧ disk.at? folder = some .folder ∧
        name.utf8ByteSize ≤ 255 ∧ last = folder ++ [name] := by
  rw [follow_append]
  cases disk.follow place names with
  | error fault => simp [Except.bind]
  | ok folder =>
    show disk.follow folder [name] = .ok last ↔ _
    rw [follow_cons_eq_ok, Place.enter_of_isPlain folder hplain]
    simp [follow, eq_comm]

/-! ## Paths into folders -/

/-- A path leads to a folder and then to a name in it, where there may be nothing yet. -/
structure LeadsInto (disk : Disk) (path : String) (folder : Place) : Prop where
  sound : pathFault? path = none
  plain : Path.IsPlain (Path.lastPiece path)
  way : disk.follow (start path) (Path.pieces path).dropLast = .ok folder
  isFolder : disk.at? folder = some .folder
  size : (Path.lastPiece path).utf8ByteSize ≤ 255

/-- The place that a path into a folder stands for. -/
def placeIn (folder : Place) (path : String) : Place := folder ++ [Path.lastPiece path]

namespace LeadsInto

theorem follow_pieces (h : disk.LeadsInto path folder) :
    disk.follow (start path) (Path.pieces path) = .ok (placeIn folder path) := by
  rw [← Path.dropLast_append_lastPiece, follow_concat_eq_ok h.plain]
  exact ⟨folder, h.way, h.isFolder, h.size, rfl⟩

theorem find (h : disk.LeadsInto path folder) :
    disk.find path = match disk.at? (placeIn folder path) with
      | some node => .ok node
      | none => .error .notFound := by
  simp only [Disk.find, h.sound, h.follow_pieces]
  rfl

theorem read_eq_ok (h : disk.LeadsInto path folder) {content : ByteArray}
    (hat : disk.at? (placeIn folder path) = some (.file content)) :
    disk.read path = .ok content := by
  rw [Disk.read, h.find, hat]
  rfl

/-- A path leads into the same folder on a disk on which all folders have stayed. -/
theorem of_folders {after : Disk}
    (hfolders : ∀ p, disk.at? p = some .folder → after.at? p = some .folder)
    (h : disk.LeadsInto path folder) : after.LeadsInto path folder :=
  ⟨h.sound, h.plain, follow_of_folders hfolders h.way, hfolders folder h.isFolder, h.size⟩

end LeadsInto

/-- What can be found stands at the end of its way. -/
theorem exists_place_of_find {node : Node} (h : disk.find path = .ok node) :
    pathFault? path = none ∧ ∃ place, disk.follow (start path) (Path.pieces path) = .ok place ∧
      disk.at? place = some node := by
  unfold find at h
  split at h
  case h_1 => cases h
  case h_2 hsound =>
    obtain ⟨place, hway, hplace⟩ := except_bind_eq_ok.1 h
    refine ⟨hsound, place, hway, ?_⟩
    split at hplace
    case h_1 node' hat =>
      cases hplace
      exact hat
    case h_2 => cases hplace

/-- What can be read is a file. -/
theorem find_of_read {content : ByteArray} (h : disk.read path = .ok content) :
    disk.find path = .ok (.file content) := by
  obtain ⟨node, hfind, hnode⟩ := except_bind_eq_ok.1 h
  split at hnode
  · cases hnode
    exact hfind
  · cases hnode

/-- A path to a file leads into the folder of the file. -/
theorem exists_leadsInto_of_read {content : ByteArray} (hplain : Path.IsPlain (Path.lastPiece path))
    (h : disk.read path = .ok content) :
    ∃ folder, disk.LeadsInto path folder ∧
      disk.at? (placeIn folder path) = some (.file content) := by
  obtain ⟨hsound, place, hway, hat⟩ := exists_place_of_find (find_of_read h)
  rw [← Path.dropLast_append_lastPiece, follow_concat_eq_ok hplain] at hway
  obtain ⟨folder, habove, hfolder, hsize, rfl⟩ := hway
  exact ⟨folder, ⟨hsound, hplain, habove, hfolder, hsize⟩, hat⟩

/-- A path that can be written to leads into a folder, and to no folder in it. -/
theorem exists_leadsInto_of_target (h : disk.target path = .ok place) :
    ∃ folder, disk.LeadsInto path folder ∧ place = placeIn folder path ∧
      disk.at? place ≠ some .folder := by
  unfold target at h
  split at h
  case h_1 => cases h
  case h_2 hsound =>
    split at h
    case h_1 => cases h
    case h_2 name above hpieces =>
      obtain ⟨folder, hway, h⟩ := except_bind_eq_ok.1 h
      obtain ⟨_, hfolder, h⟩ := except_bind_eq_ok.1 h
      split at h
      case isTrue => cases h
      case isFalse hname =>
        obtain ⟨place', hplace, h⟩ := except_bind_eq_ok.1 h
        simp only [Path.getLast?_pieces, Bool.or_eq_true, not_or, Bool.not_eq_true, beq_iff_eq,
          Option.some.injEq] at hname
        obtain ⟨⟨hempty, hidle⟩, hup⟩ := hname
        -- The path ends with its last name, so nothing was dropped behind it.
        rw [Path.reverse_pieces, List.dropWhile_cons_of_neg (by simpa using hempty)] at hpieces
        obtain ⟨rfl, rfl⟩ := List.cons.inj hpieces
        rw [List.reverse_reverse] at hway
        have hplain : Path.IsPlain (Path.lastPiece path) := ⟨hidle, hup⟩
        rw [follow_cons_eq_ok, Place.enter_of_isPlain folder hplain] at hplace
        obtain ⟨hat, hsize, hlast⟩ := hplace
        cases hlast
        split at h
        case isTrue => cases h
        case isFalse hfree =>
          cases h
          exact ⟨folder, ⟨hsound, hplain, hway, hat, hsize⟩, rfl, hfree⟩

/-! ## Reading after writing -/

section

variable {content : ByteArray} (htarget : disk.target path = .ok place)

include htarget

/-- Writing a file changes what stands at its place and nowhere else. -/
theorem at?_put_target (node : Node) (other : Place) :
    (disk.put place node).at? other = if other = place then some node else disk.at? other := by
  obtain ⟨folder, hleads, rfl, -⟩ := exists_leadsInto_of_target htarget
  exact at?_put hleads.isFolder node other

/-- Writing a file leaves all folders. -/
theorem folder_put_target (node : Node) (p : Place) (hp : disk.at? p = some .folder) :
    (disk.put place node).at? p = some .folder := by
  obtain ⟨folder, -, -, hfree⟩ := exists_leadsInto_of_target htarget
  have hne : p ≠ place := by
    rintro rfl
    exact hfree hp
  rw [at?_put_target htarget, if_neg hne, hp]

/-- A file that was written is read back under its path. -/
theorem read_put_target : (disk.put place (.file content)).read path = .ok content := by
  obtain ⟨folder, hleads, hplace, -⟩ := exists_leadsInto_of_target htarget
  have hafter := hleads.of_folders (folder_put_target htarget (.file content))
  exact hafter.read_eq_ok (by rw [at?_put_target htarget, if_pos hplace.symm])

/-- A file with another last name is read as before. -/
theorem read_put_of_lastPiece_ne {other : String} {held : ByteArray}
    (hplain : Path.IsPlain (Path.lastPiece other))
    (hname : Path.lastPiece other ≠ Path.lastPiece path) (hread : disk.read other = .ok held) :
    (disk.put place (.file content)).read other = .ok held := by
  obtain ⟨folder, -, hplace, -⟩ := exists_leadsInto_of_target htarget
  obtain ⟨folder', hleads', hheld⟩ := exists_leadsInto_of_read hplain hread
  have hne : placeIn folder' other ≠ place := by
    rw [hplace]
    intro h
    exact hname (List.append_inj' h rfl |>.2 |> List.cons.inj |>.1)
  have hafter := hleads'.of_folders (folder_put_target htarget (.file content))
  exact hafter.read_eq_ok (by rw [at?_put_target htarget, if_neg hne, hheld])

end

/-! ## Making and filling a file -/

/-- What is put at a place takes the place of what was put there before. -/
theorem put_put (disk : Disk) (place : Place) (before node : Node) :
    (disk.put place before).put place node = disk.put place node := by
  have hlisted : ((disk.put place before).nodes.lookup place).isSome = true := by
    rw [lookup_put, if_pos rfl]
    rfl
  have hreplace : ((disk.put place before).nodes.map fun p =>
      if p.1 = place then (place, node) else p) = (disk.put place node).nodes := by
    rw [nodes_put, nodes_put]
    split
    case isTrue =>
      rw [List.map_map]
      refine List.map_congr_left fun p _ => ?_
      by_cases hp : p.1 = place <;> simp [hp]
    case isFalse h =>
      -- Nothing was listed at the place, so there is nothing to replace but what was added.
      rw [Bool.not_eq_true, Option.isSome_eq_false_iff, Option.isNone_iff_eq_none,
        List.lookup_eq_none_iff] at h
      have hkept : ∀ p ∈ disk.nodes, (if p.1 = place then (place, node) else p) = p := by
        intro p hp
        have hkey := h p hp
        rw [bne_iff_ne] at hkey
        exact if_neg hkey.symm
      rw [List.map_append, List.map_congr_left hkept, List.map_id']
      simp
  calc (disk.put place before).put place node
      = { disk with nodes := (disk.put place before).nodes.map fun p =>
          if p.1 = place then (place, node) else p } := by rw [put, if_pos hlisted]; rfl
    _ = disk.put place node := by rw [hreplace]; rfl

/-- A file is made where its path leads, unless that is locked. -/
theorem create_eq_ok {created : Disk} :
    disk.create path = .ok (place, created) ↔
      disk.target path = .ok place ∧ disk.isLocked place = false ∧
        created = disk.put place (.file .empty) := by
  unfold create
  cases disk.target path with
  | error fault => simp [bind, Except.bind]
  | ok target =>
    show (if _ then _ else _) = _ ↔ _
    split
    case isTrue hlocked =>
      simp only [reduceCtorEq, Except.ok.injEq, false_iff, not_and]
      rintro rfl hfree
      rw [hlocked] at hfree
      cases hfree
    case isFalse hfree =>
      rw [Bool.not_eq_true] at hfree
      simp only [pure, Except.pure, Except.ok.injEq, Prod.mk.injEq]
      constructor
      · rintro ⟨rfl, rfl⟩
        exact ⟨rfl, hfree, rfl⟩
      · rintro ⟨rfl, -, rfl⟩
        exact ⟨rfl, rfl⟩

section

variable {content : ByteArray} {created : Disk} (hcreate : disk.create path = .ok (place, created))

include hcreate

/-- A file that was filled is as if it had been put on the disk at once. -/
theorem fill_eq_of_fault?_eq_none (h : (created.fill place content).fault? = none) :
    (created.fill place content).disk = disk.put place (.file content) := by
  obtain ⟨-, -, rfl⟩ := create_eq_ok.1 hcreate
  unfold fill at h ⊢
  split at h
  case h_1 => exact put_put disk place _ _
  case h_2 => cases h

/-- Making and filling a file changes no other, even where filling it fails. -/
theorem at?_fill {other : Place} (hother : other ≠ place) :
    (created.fill place content).disk.at? other = disk.at? other := by
  obtain ⟨htarget, -, rfl⟩ := create_eq_ok.1 hcreate
  have hput (node : Node) :
      ((disk.put place (.file .empty)).put place node).at? other = disk.at? other := by
    rw [put_put, at?_put_target htarget, if_neg hother]
  unfold fill
  split
  · exact hput _
  · exact hput _

end

end Disk

end Mailbox
