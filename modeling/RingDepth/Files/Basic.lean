/-!
# Paths and failures of files

A path is a text whose names are separated by slashes. It is followed name by name, so what it leads to
depends on the directories on the way; a place is what is left once no single or double dot remains. A
path that starts with a slash is absolute. The failures that operations on files can meet have the texts
that the system gives them.
-/

namespace RingDepth

/-- Why an operation on a file failed. -/
inductive FileError where
  | notFound
  | isDirectory
  | notDirectory
  | exists
  | nameTooLong
  | notWritable
  /-- The path holds the character of code zero, which ends paths. -/
  | zeroInPath
  /-- The file holds no text in UTF-8. -/
  | notText
deriving DecidableEq, Repr

/-- The text of the error. -/
def FileError.message : FileError → String
  | notFound => "No such file or directory (os error 2)"
  | isDirectory => "Is a directory (os error 21)"
  | notDirectory => "Not a directory (os error 20)"
  | .exists => "File exists (os error 17)"
  | nameTooLong => "File name too long (os error 36)"
  | notWritable => "Bad file descriptor (os error 9)"
  | zeroInPath => "file name contained an unexpected NUL byte"
  | notText => "stream did not contain valid UTF-8"

/-- Where something stands: its names from the current directory. The root is written as a slash in front
of the names, and each directory above the current one as a double dot. -/
abbrev Place := List String

namespace Place

/-- The place of the current directory. -/
def current : Place := []

/-- The place of the root. -/
def root : Place := ["/"]

/-- The directory above a place. The root is its own. -/
def above (place : Place) : Place :=
  if place = root then root
  else if place.all (· = "..") then ".." :: place
  else place.dropLast

end Place

namespace Path

/-- Whether a path does not depend on the current directory. -/
def isAbsolute (path : String) : Bool := path.startsWith "/"

/-- The names of a path, single and double dots among them. -/
def names (path : String) : List String :=
  ((path.toList.splitOn '/').map String.ofList).filter (· ≠ "")

/-- The place from which a path is followed. -/
def start (path : String) : Place := if isAbsolute path then Place.root else Place.current

/-- A path that leads to a place. -/
def ofPlace : Place → String
  | [] => "."
  | "/" :: names => "/" ++ "/".intercalate names
  | names => "/".intercalate names

/-- A path followed from another one. -/
def join (base path : String) : String :=
  if isAbsolute path || base.isEmpty then path
  else if base.endsWith "/" then base ++ path
  else base ++ "/" ++ path

/-- The characters of a path in reverse, without what names no further place: slashes, and single dots
after a slash. The root stays. -/
def withoutTail : List Char → List Char
  | ['/'] => ['/']
  | '/' :: rest => withoutTail rest
  | '.' :: '/' :: rest => withoutTail ('/' :: rest)
  | cs => cs

/-- The path of the directory that holds the place of a path. The empty path and the root have none. -/
def parent? (path : String) : Option String :=
  match withoutTail path.toList.reverse with
  | [] => none
  | ['/'] => none
  | cs => some (String.ofList (withoutTail (cs.dropWhile (· ≠ '/'))).reverse)

/-- At most this many paths: a path, the one of the directory that holds its place, and so on. The empty
path is none of them. -/
def ancestorsWithin : Nat → String → List String
  | 0, _ => []
  | n + 1, path =>
    if path = "" then []
    else path :: ((parent? path).map (ancestorsWithin n)).getD []

/-- A path, the path of the directory that holds its place, and so on. -/
def ancestors (path : String) : List String := ancestorsWithin (path.length + 1) path

/-- The greatest number of bytes of a name. -/
def maxNameBytes : Nat := 255

/-- The number of bytes that a path has to stay below. -/
def maxBytes : Nat := 4096

/-- Refuses what the system takes for no path. -/
def check (path : String) : Except FileError Unit :=
  if '\x00' ∈ path.toList then .error .zeroInPath
  else if path = "" then .error .notFound
  else if maxBytes ≤ path.utf8ByteSize then .error .nameTooLong
  else .ok ()

end Path

end RingDepth
