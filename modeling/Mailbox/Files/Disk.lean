import Mailbox.Files.Path
set_option autoImplicit false

/-!
# Disks

The files that a command works on.  A disk is seen from one folder, at which relative paths start.
Reaching a file by its path fails for the same reasons, and with the same words, as on a common
file system.  A file is written in two steps, each with its own reasons to fail: it is made, or
emptied where it stood, and then it is filled.

Scope: whatever is on a disk can be read.  Links, further names of one file, and failures of the
device itself are left out, and the names on a path are texts.
-/

namespace Mailbox

/-- Why a file cannot be read or written. -/
inductive FileFault where
  | notFound
  | notFolder
  | isFolder
  | nameTooLong
  | denied
  | noSpace
  deriving DecidableEq, Repr

/-- The fault in words. -/
def FileFault.message : FileFault → String
  | .notFound => "No such file or directory (os error 2)"
  | .notFolder => "Not a directory (os error 20)"
  | .isFolder => "Is a directory (os error 21)"
  | .nameTooLong => "File name too long (os error 36)"
  | .denied => "Permission denied (os error 13)"
  | .noSpace => "No space left on device (os error 28)"

/-- What stands at a place. -/
inductive Node where
  | file (content : ByteArray)
  | folder

instance : DecidableEq Node
  | .file a, .file b =>
    match ByteArray.instDecidableEq a b with
    | .isTrue h => .isTrue (by rw [h])
    | .isFalse h => .isFalse fun hab => h (Node.file.inj hab)
  | .folder, .folder => .isTrue rfl
  | .file _, .folder => .isFalse nofun
  | .folder, .file _ => .isFalse nofun

/-- A place on a disk: the names that lead to it.  The first name is a slash for places under the
root, and two dots for places above the folder from which the disk is seen. -/
abbrev Place := List String

namespace Place

/-- The place that a name leads to. -/
def enter (place : Place) (name : String) : Place :=
  if Path.isIdle name then place
  else if name == ".." then
    match place.getLast? with
    | none => [".."]
    | some ".." => place ++ [".."]
    | some "/" => place
    | some _ => place.dropLast
  else place ++ [name]

/-- A place that is a folder whatever the disk holds. -/
def isFixed (place : Place) : Bool :=
  place.all (· == "..") || place == ["/"]

end Place

/-- The number of bytes that a node takes. -/
def Node.size : Node → Nat
  | .file content => content.size
  | .folder => 0

/-- Files and folders by their places.  Folders on the way to a place need not be listed.  A file
that is locked cannot be changed, and no file can be made in a folder that is locked.  Where there
is a capacity, the files together take no more bytes than that. -/
structure Disk where
  nodes : List (Place × Node)
  locked : List Place := []
  capacity : Option Nat := none
  deriving DecidableEq, Inhabited

namespace Disk

/-- The disk without files. -/
def empty : Disk := { nodes := [] }

/-- What stands at a place. -/
def at? (disk : Disk) (place : Place) : Option Node :=
  match disk.nodes.lookup place with
  | some node => some node
  | none =>
    if place.isFixed || disk.nodes.any fun p => place.isPrefixOf p.1 then some .folder else none

/-- The disk with something else at a place. -/
def put (disk : Disk) (place : Place) (node : Node) : Disk :=
  { disk with
    nodes :=
      if (disk.nodes.lookup place).isSome then
        disk.nodes.map fun p => if p.1 = place then (place, node) else p
      else disk.nodes ++ [(place, node)] }

theorem nodes_put (disk : Disk) (place : Place) (node : Node) :
    (disk.put place node).nodes =
      if (disk.nodes.lookup place).isSome then
        disk.nodes.map fun p => if p.1 = place then (place, node) else p
      else disk.nodes ++ [(place, node)] := rfl

theorem lookup_map_replace (nodes : List (Place × Node)) (place other : Place) (node : Node) :
    (nodes.map fun p => if p.1 = place then (place, node) else p).lookup other =
      if other = place then (nodes.lookup other).map fun _ => node else nodes.lookup other := by
  induction nodes with
  | nil => simp
  | cons p nodes ih =>
    obtain ⟨key, held⟩ := p
    rw [List.map_cons]
    by_cases hk : key = place
    · subst hk
      rw [if_pos rfl, List.lookup_cons, List.lookup_cons, ih]
      by_cases ho : other = key
      · simp [ho]
      · simp [ho, beq_false_of_ne ho]
    · rw [if_neg hk, List.lookup_cons, List.lookup_cons, ih]
      by_cases ho : other = key
      · subst ho
        simp [hk]
      · simp [beq_false_of_ne ho]

/-- Putting something at a place changes what is listed there and nowhere else. -/
theorem lookup_put (disk : Disk) (place other : Place) (node : Node) :
    (disk.put place node).nodes.lookup other =
      if other = place then some node else disk.nodes.lookup other := by
  rw [nodes_put]
  split
  case isTrue h =>
    rw [lookup_map_replace]
    obtain ⟨held, hh⟩ := Option.isSome_iff_exists.1 h
    by_cases ho : other = place <;> simp [ho, hh]
  case isFalse h =>
    rw [List.lookup_append]
    rw [Bool.not_eq_true, Option.isSome_eq_false_iff, Option.isNone_iff_eq_none] at h
    by_cases ho : other = place
    · simp [ho, h]
    · simp [ho, List.lookup_cons, beq_false_of_ne ho]

theorem at?_put_self (disk : Disk) (place : Place) (node : Node) :
    (disk.put place node).at? place = some node := by
  simp [at?, lookup_put]

/-- Requires that a place is a folder. -/
def requireFolder (disk : Disk) (place : Place) : Except FileFault Unit :=
  match disk.at? place with
  | some .folder => .ok ()
  | some (.file _) => .error .notFolder
  | none => .error .notFound

/-- Follows names from a place.  Every place from which a name is followed has to be a folder. -/
def follow (disk : Disk) (place : Place) : List String → Except FileFault Place
  | [] => .ok place
  | name :: names => do
    disk.requireFolder place
    if 255 < name.utf8ByteSize then .error .nameTooLong
    else disk.follow (place.enter name) names

/-- The place at which a path starts. -/
def start (path : String) : Place :=
  if Path.isAbsolute path then ["/"] else []

/-- Why a path leads nowhere whatever the disk holds. -/
def pathFault? (path : String) : Option FileFault :=
  if path == "" then some .notFound
  else if Path.tooLong ≤ path.utf8ByteSize then some .nameTooLong
  else none

/-- What a path leads to. -/
def find (disk : Disk) (path : String) : Except FileFault Node :=
  match pathFault? path with
  | some fault => .error fault
  | none => do
    let place ← disk.follow (start path) (Path.pieces path)
    match disk.at? place with
    | some node => .ok node
    | none => .error .notFound

/-- The content of a file. -/
def read (disk : Disk) (path : String) : Except FileFault ByteArray := do
  match ← disk.find path with
  | .file content => .ok content
  | .folder => .error .isFolder

/-- Whether a path leads anywhere. -/
def isThere (disk : Disk) (path : String) : Bool :=
  match disk.find path with
  | .ok _ => true
  | .error _ => false

/-- The place of the file that writing to a path empties or makes.  A path that ends with a
slash asks for a folder, whatever its last name. -/
def target (disk : Disk) (path : String) : Except FileFault Place :=
  match pathFault? path with
  | some fault => .error fault
  | none =>
    match (Path.pieces path).reverse.dropWhile (· == "") with
    | [] => .error .isFolder
    | name :: above => do
      let folder ← disk.follow (start path) above.reverse
      disk.requireFolder folder
      if (Path.pieces path).getLast? == some "" || Path.isIdle name || name == ".." then
        .error .isFolder
      else
        let place ← disk.follow folder [name]
        if disk.at? place = some .folder then .error .isFolder else .ok place

/-- Whether a file at a place must not be changed or, where there is none yet, made. -/
def isLocked (disk : Disk) (place : Place) : Bool :=
  disk.locked.contains (if (disk.at? place).isSome then place else place.dropLast)

/-- Makes an empty file under a path, or empties the file that is there.  The place of the file
comes with the disk. -/
def create (disk : Disk) (path : String) : Except FileFault (Place × Disk) := do
  let place ← disk.target path
  if disk.isLocked place then .error .denied
  else return (place, disk.put place (.file .empty))

/-- The number of bytes in all files. -/
def size (disk : Disk) : Nat :=
  disk.nodes.foldl (fun total p => total + p.2.size) 0

/-- The number of bytes that can still be written, if there is a bound. -/
def room? (disk : Disk) : Option Nat :=
  disk.capacity.map (· - disk.size)

/-- What comes of writing into a file: the disk, and why writing stopped early, if it did. -/
structure Filling where
  disk : Disk
  fault? : Option FileFault

/-- Writes bytes into the empty file at a place.  Where there is no room for all of them, those
that there is room for stay in the file. -/
def fill (disk : Disk) (place : Place) (content : ByteArray) : Filling :=
  match disk.room?.filter (· < content.size) with
  | none => ⟨disk.put place (.file content), none⟩
  | some room => ⟨disk.put place (.file (content.extract 0 room)), some .noSpace⟩

/-- The name that the way to a place takes next, if it passes down through a folder. -/
def nextName? (folder place : Place) : Option String :=
  if folder.isPrefixOf place then
    place[folder.length]?.filter fun name => name != ".." && name != "/"
  else none

/-- The names in a folder, in ascending order. -/
def names (disk : Disk) (folder : Place) : List String :=
  ((disk.nodes.filterMap fun p => nextName? folder p.1).eraseDups).mergeSort (· ≤ ·)

/-- The number of names on the longest way to a place. -/
def depth (disk : Disk) : Nat :=
  (disk.nodes.map fun p => p.1.length).foldl max 0

/-- The files of a disk that another disk does not have with the same content. -/
def newFiles (disk before : Disk) : List (Place × ByteArray) :=
  disk.nodes.filterMap fun p =>
    match p.2 with
    | .file content => if before.nodes.lookup p.1 = some (.file content) then none
      else some (p.1, content)
    | .folder => none

end Disk

end Mailbox
