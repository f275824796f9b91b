import RingDepth.Files.Basic
import RingDepth.Store.LedgerFile

/-!
# Trees of files

The files that a program reaches, by their places. A path is followed through directories alone, so a double
dot leads nowhere behind a name at which no directory stands. Beside plain files there are those in which
the engine keeps the databases of a ledger.
-/

namespace RingDepth

/-- What stands at a place. -/
inductive Entry where
  | directory
  | file (bytes : Bytes)
  /-- A file of databases. -/
  | ledger (content : LedgerFile)
  /-- A device that holds nothing and forgets what is written to it. -/
  | sink
deriving DecidableEq

/-- The entries that a program reaches, apart from what stands there anyway. -/
structure FileTree where
  entries : Std.ExtTreeMap Place Entry := ∅

namespace FileTree

/-- What stands at a place anyway: the root, the current directory and those above it, and a few
places that every system has. -/
def standing? (place : Place) : Option Entry :=
  if place.all (· = "..") ∨ place ∈ [Place.root, ["/", "dev"], ["/", "tmp"]] then some .directory
  else if place = ["/", "dev", "null"] then some .sink
  else none

/-- What stands at a place, if anything does. -/
def entry? (t : FileTree) (place : Place) : Option Entry := standing? place <|> t.entries[place]?

/-- The entries that another tree does not have, those above others first. -/
def changesFrom (t before : FileTree) : List (Place × Entry) :=
  t.entries.toList.filter fun (place, e) => before.entry? place ≠ some e

/-- Puts an entry at a place. -/
def put (t : FileTree) (place : Place) (e : Entry) : FileTree :=
  { entries := t.entries.insert place e }

/-- Checks that a directory stands at a place. -/
def checkDirectory (t : FileTree) (place : Place) : Except FileError Unit :=
  match t.entry? place with
  | some .directory => .ok ()
  | some _ => .error .notDirectory
  | none => .error .notFound

/-- The place to which a name leads from a place. -/
def follow (t : FileTree) (place : Place) (name : String) : Except FileError Place := do
  t.checkDirectory place
  if name = "." then
    return place
  if name = ".." then
    return place.above
  if Path.maxNameBytes < name.utf8ByteSize then
    throw .nameTooLong
  return place ++ [name]

/-- The place to which a path leads. Only the last of its names may lead to nothing; a directory has to
stand there if a slash ends the path. -/
def resolve (t : FileTree) (path : String) : Except FileError Place := do
  Path.check path
  let place ← (Path.names path).foldlM t.follow (Path.start path)
  if path.endsWith "/" then
    t.checkDirectory place
  return place

/-- What stands where a path leads. -/
def find (t : FileTree) (path : String) : Except FileError Entry := do
  match t.entry? (← t.resolve path) with
  | some e => return e
  | none => throw .notFound

/-- Whether something stands where a path leads. -/
def contains (t : FileTree) (path : String) : Bool := (t.find path).isOk

/-- Whether a path leads to a directory. -/
def isDirectory (t : FileTree) (path : String) : Bool :=
  match t.find path with
  | .ok .directory => true
  | _ => false

/-- The bytes of a file. -/
def readBytes (t : FileTree) (path : String) : Except FileError Bytes := do
  match ← t.find path with
  | .directory => throw .isDirectory
  | .file bytes => return bytes
  | .ledger content => return content.image
  | .sink => return []

/-- The text of a file. -/
def readText (t : FileTree) (path : String) : Except FileError String := do
  let bytes ← t.readBytes path
  match Bytes.toText? bytes with
  | some s => return s
  | none => throw .notText

/-- The place at which a path makes something, which is that of its last name below a directory. A path
without such a name leads to a directory that stands already. -/
def newPlace? (t : FileTree) (path : String) : Except FileError (Option Place) := do
  Path.check path
  let names := Path.names path
  let directory ← names.dropLast.foldlM t.follow (Path.start path)
  t.checkDirectory directory
  match names.getLast? with
  | none => return none
  | some name =>
    if name = "." ∨ name = ".." then
      return none
    return some (← t.follow directory name)

/-- Writes bytes at a place at which no directory stands. -/
def overwrite (t : FileTree) (place : Place) (bytes : Bytes) : FileTree :=
  match t.entry? place with
  | some .sink => t
  | some (.ledger content) => t.put place (((content.overwrite? bytes).map .ledger).getD (.file bytes))
  | _ => t.put place (.file bytes)

/-- Writes a file. -/
def writeBytes (t : FileTree) (path : String) (bytes : Bytes) : Except FileError FileTree := do
  match ← t.newPlace? path with
  | none => throw .isDirectory
  | some place =>
    if path.endsWith "/" ∨ t.entry? place = some .directory then
      throw .isDirectory
    return t.overwrite place bytes

/-- Makes a directory where nothing stands. -/
def makeDirectory (t : FileTree) (path : String) : Except FileError FileTree := do
  match ← t.newPlace? path with
  | none => throw .exists
  | some place =>
    if (t.entry? place).isSome then
      throw .exists
    return t.put place .directory

/-- Makes the directory of the first path, and before it those of the others if they are missing. -/
def makeWithin (t : FileTree) : List String → FileTree × Except FileError Unit
  | [] => (t, .ok ())
  | path :: above =>
    let there (t : FileTree) (e : FileError) : FileTree × Except FileError Unit :=
      (t, if t.isDirectory path then .ok () else .error e)
    match t.makeDirectory path with
    | .ok t => (t, .ok ())
    | .error .notFound =>
      match t.makeWithin above with
      | (t, .error e) => (t, .error e)
      | (t, .ok ()) =>
        match t.makeDirectory path with
        | .ok t => (t, .ok ())
        | .error e => there t e
    | .error e => there t e

/-- Makes the directory to which a path leads, and those on the way. The ones that were made before a
failure stay. -/
def makeDirectories (t : FileTree) (path : String) : FileTree × Except FileError Unit :=
  t.makeWithin (Path.ancestors path)

/-- Writes a file, and makes the directories above it. -/
def writeWithParents (t : FileTree) (path : String) (bytes : Bytes) :
    FileTree × Except FileError Unit :=
  match t.makeDirectories ((Path.parent? path).getD "") with
  | (t, .error e) => (t, .error e)
  | (t, .ok ()) =>
    match t.writeBytes path bytes with
    | .ok t => (t, .ok ())
    | .error e => (t, .error e)

end FileTree

end RingDepth
