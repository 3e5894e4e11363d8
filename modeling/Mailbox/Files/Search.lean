import Mailbox.Files.Disk
import Mailbox.Files.Matching
set_option autoImplicit false

/-!
# Searching

The paths on a disk that match a path pattern.  A piece without wildcards is followed as it is; a
piece with wildcards is compared with the names in its folder, in ascending order.  Dots in the
pattern that lead to the same folder or the one above stay in the paths found.

Normative source: SPEC_FULL.md, section A4.

Scope: links are left out, and folders can be read if they can be reached.
-/

namespace Mailbox

/-- Why a search fails: its pattern is wrong, or there is a folder that cannot be read. -/
inductive SearchFault where
  | pattern (fault : PatternFault)
  | unreadable (path : String) (fault : FileFault)
  deriving DecidableEq, Repr

/-- The fault in words. -/
def SearchFault.message : SearchFault → String
  | .pattern fault => fault.message
  | .unreadable path fault =>
    s!"attempting to read `{path}` resulted in an error: {fault.message}"

/-- A path that a search has come to, with the place it leads to. -/
structure Spot where
  path : String
  place : Place
  isFolder : Bool
  deriving DecidableEq, Repr

namespace Spot

/-- The path of a name below a spot.  Below the starting folder it is the name alone. -/
def below (s : Spot) (name : String) : String :=
  if Path.isHere s.path then name else Path.join s.path name

/-- The last name on the way to a spot. -/
def name (s : Spot) : String :=
  s.place.getLastD ""

end Spot

namespace Disk

/-- The spot that a path leads to. -/
def spot (disk : Disk) (path : String) (place : Place) : Spot :=
  ⟨path, place, (pathFault? path).isNone && disk.at? place = some .folder⟩

/-- What is in a folder, in ascending order of names.  A folder is known as one even where its path
is too long to read it. -/
def children (disk : Disk) (s : Spot) : Except SearchFault (List Spot) :=
  match pathFault? s.path with
  | some fault => .error (.unreadable s.path fault)
  | none => .ok ((disk.names s.place).map fun name =>
      let place := s.place ++ [name]
      ⟨s.below name, place, disk.at? place = some .folder⟩)

/-- What is found at the spots below a folder, down to a depth.  A spot comes before those below
it. -/
def findBelow (disk : Disk) (found : Spot → Except SearchFault (List String)) :
    (depth : Nat) → Spot → Except SearchFault (List String)
  | 0, _ => .ok []
  | depth + 1, s =>
    if s.isFolder then do
      let here ← (← disk.children s).mapM fun child => do
        return (← found child) ++ (← disk.findBelow found depth child)
      return here.flatten
    else .ok []

/-- Leaves out pieces for any folders that stand next to another one. -/
def mergeFolderPieces : List PatternPiece → List PatternPiece
  | .anyFolders :: .anyFolders :: ps => mergeFolderPieces (.anyFolders :: ps)
  | p :: ps => p :: mergeFolderPieces ps
  | [] => []

/-- A name that every folder has. -/
def isSpecial (name : String) : Bool :=
  name == "." || name == ".."

/-- The special names that a piece with wildcards matches: a dot first in the pattern is needed
to match them. -/
def specialMatches : List PatternPart → List String
  | .char '.' :: ps => ["..", "."].filter fun s => PatternPart.matchName (.char '.' :: ps) s.toList
  | _ => []

/-- The paths that match the pieces from a spot on.  When `onlyFolders` is set, the last piece has
to match a folder. -/
def matchesFrom (disk : Disk) (onlyFolders : Bool) :
    List PatternPiece → Spot → Except SearchFault (List String)
  | [], s => .ok (if onlyFolders && !s.isFolder then [] else [s.path])
  | .literal name :: ps, s =>
    let next := disk.spot (s.below name) (s.place.enter name)
    let isThere := (pathFault? next.path).isNone && (disk.at? next.place).isSome
    if s.isFolder && (isSpecial name || isThere) then disk.matchesFrom onlyFolders ps next
    else .ok []
  | .wildcard parts :: ps, s =>
    if s.isFolder then do
      let children ← disk.children s
      let specials := (specialMatches parts).map fun name =>
        disk.spot (Path.join s.path name) (s.place.enter name)
      let named := children.filter (PatternPart.matchName parts ·.name.toList)
      return (← (specials ++ named).mapM fun next => disk.matchesFrom onlyFolders ps next).flatten
    else .ok []
  | [.anyFolders], s =>
    disk.findBelow (fun next => .ok (if next.isFolder then [next.path] else [])) (disk.depth + 1) s
  | .anyFolders :: p :: ps, s =>
    disk.findBelow
      (fun next =>
        if p.matchName next.name then disk.matchesFrom onlyFolders ps next else .ok [])
      (disk.depth + 1) s

/-- The pieces of a path pattern. -/
def patternPieces (pattern : String) : Except PatternFault (List PatternPiece) := do
  let cs := pattern.toList
  let _ ← PatternPart.read cs
  let rest := if Path.isAbsolute pattern then cs.drop 1 else cs
  let pieces ← (Text.ended (· == '/') rest).mapM fun piece =>
    (PatternPart.read piece).map PatternPiece.ofParts
  return mergeFolderPieces (if rest.isEmpty then [.literal ""] else pieces)

/-- The paths that match a path pattern. -/
def search (disk : Disk) (pattern : String) : Except SearchFault (List String) :=
  match patternPieces pattern with
  | .error fault => .error (.pattern fault)
  | .ok pieces =>
    let onlyFolders := pattern.toList.getLast? == some '/'
    let path := if Path.isAbsolute pattern then "/" else "."
    disk.matchesFrom onlyFolders pieces (disk.spot path (start path))

end Disk

end Mailbox
