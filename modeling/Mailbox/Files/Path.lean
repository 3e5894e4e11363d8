import Mailbox.Text.Pieces
set_option autoImplicit false

/-!
# Paths

Names of files as text.  Slashes stand between the names of folders and, at the end, the name of
the file.  A path that starts with a slash is absolute.

Scope: a path is a text, and a slash is the only separator.
-/

namespace Mailbox.Path

/-- The names between the slashes.  Names may be empty. -/
def pieces (path : String) : List String :=
  (Text.separated (· == '/') path.toList).map String.ofList

/-- Whether a path starts at the root. -/
def isAbsolute (path : String) : Bool :=
  path.toList.head? == some '/'

/-- A piece that does not lead anywhere: empty, or a single dot. -/
def isIdle (piece : String) : Bool :=
  piece == "" || piece == "."

/-- The path of a name in a folder. -/
def join (folder name : String) : String :=
  if folder == "" || folder.back == '/' then folder ++ name
  else folder ++ "/" ++ name

/-- The last name of a path, unless it leads to the folder above. -/
def fileName? (path : String) : Option String :=
  ((pieces path).filter (!isIdle ·)).getLast?.filter (· != "..")

/-- Splits a name at its last dot.  A dot at the start does not count. -/
def splitName (name : String) : String × Option String :=
  let reversed := name.toList.reverse
  match reversed.dropWhile (· != '.') with
  | _ :: c :: cs =>
    (String.ofList (c :: cs).reverse, some (String.ofList (reversed.takeWhile (· != '.')).reverse))
  | _ => (name, none)

/-- The part of the last name behind its last dot. -/
def extension? (path : String) : Option String :=
  (fileName? path).bind fun name => (splitName name).2

/-- The path with another extension on its last name.  The old extension goes first; when two dots
at the end of the path are all it leaves, they lead to the folder above and get no extension. -/
def withExtension (path ext : String) : String :=
  match fileName? path with
  | none => path
  | some name =>
    let folders := ((pieces path).reverse.dropWhile isIdle).drop 1
    let (stem, old) := splitName name
    let renamed :=
      if stem == "." && old.isSome && (pieces path).getLast? == some name then ".."
      else stem ++ "." ++ ext
    "/".intercalate (renamed :: folders).reverse

/-- The number of bytes at which a path is too long. -/
def tooLong : Nat := 4096

/-- Whether a path stays where it starts. -/
def isHere (path : String) : Bool :=
  path.front == '.' && (pieces path).head? == some "." && (pieces path).all isIdle

example : fileName? "a/b.lmc/" = some "b.lmc" ∧ fileName? "a/.." = none := by decide +kernel

example : extension? "a.b.lmc" = some "lmc" ∧ extension? "p." = some "" ∧
    extension? ".lmc" = none := by decide +kernel

example : withExtension "d/a.b.lmc" "lmo" = "d/a.b.lmo" ∧
    withExtension ".lmc" "lmo" = ".lmc.lmo" := by decide +kernel

example : withExtension "d/..lmc" "lmo" = "d/.." ∧
    withExtension "..lmc/" "lmo" = "..lmo" := by decide +kernel

end Mailbox.Path
