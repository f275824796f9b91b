import RingDepth.Files.Tree
import RingDepth.Store.Mapped
import RingDepth.Store.Schema

/-!
# Ledger directories in use

A program opens ledger directories to write or only to read them. While a directory is open it can be
opened again, but only with the same options; and once one of its handles has been closed, not before
the others are closed too.
-/

namespace RingDepth

/-- How a directory is opened. -/
inductive OpenOptions where
  /-- For writing, with a memory map of this many bytes, and handles for this many databases. A map of
  no bytes stands for the one with which the file was written. -/
  | writable (mapSize databases : Nat)
  | readOnly
deriving DecidableEq, Repr

/-- A directory in use: how it was opened, the size of its memory map in bytes, the number of its open
handles, and whether it may be opened again. -/
structure Opening where
  options : OpenOptions
  mapSize : Nat
  handles : Nat
  shared : Bool
deriving DecidableEq, Repr

/-- An open ledger directory: the path by which it was opened and where it stands. -/
structure Handle where
  path : String
  place : Place
  readOnly : Bool
deriving DecidableEq, Repr

/-- Files, and the ledger directories among them that are in use. -/
structure Workspace where
  files : FileTree := {}
  openings : Std.ExtTreeMap Place Opening := ∅

namespace Workspace

/-- The name of the file in which a ledger directory keeps its databases. -/
def ledgerFileName : String := "data.mdb"

/-- The name of the file by which programs keep out of each other's way. -/
def lockFileName : String := "lock.mdb"

/-- The number of bytes of a lock file. -/
def lockFileSize : Nat := 8192

/-- The number of bytes of a memory map for a new file, if no other is wanted. -/
def defaultMapSize : Nat := 1048576

/-- The greatest number of bytes for which a program finds room among its addresses. -/
def maxMapSize : Nat := 0x555555554000

/-- The number of databases of which a program keeps handles. -/
def maxDatabases : Nat := 8

/-- The databases in a directory, as far as they can be read. -/
def ledgerFile (w : Workspace) (directory : Place) : LedgerFile :=
  match w.files.entry? (directory ++ [ledgerFileName]) with
  | some (.ledger content) => content
  | _ => {}

/-- Replaces the databases in a directory. -/
def putLedgerFile (w : Workspace) (directory : Place) (content : LedgerFile) : Workspace :=
  { w with files := w.files.put (directory ++ [ledgerFileName]) (.ledger content) }

/-- Makes the lock file of a directory, or makes it valid. -/
def lock (w : Workspace) (directory : Place) : Except EngineError Workspace :=
  let place := directory ++ [lockFileName]
  let rest (bytes : Bytes) : Bytes :=
    LedgerFile.padTo lockFileSize (LedgerFile.mark ++ bytes.drop LedgerFile.mark.length)
  let kept (bytes : Bytes) : Workspace := { w with files := w.files.put place (.file (rest bytes)) }
  match w.files.entry? place with
  | none => .ok (kept [])
  | some (.file bytes) => .ok (kept bytes)
  | some .directory => .error (.file .isDirectory)
  | some _ => .ok (kept [])

/-- Counts a directory as in use. -/
def setOpening (w : Workspace) (directory : Place) (o : Opening) : Workspace :=
  { w with openings := w.openings.insert directory o }

/-- Maps the file of a directory into memory, and counts the directory as in use. -/
def mapFile (w : Workspace) (directory : Place) (options : OpenOptions) (mapSize : Nat) :
    Workspace × Except EngineError Unit :=
  let size := max mapSize (w.ledgerFile directory).pages.length
  if maxMapSize < size then (w, .error .noAddresses)
  else (w.setOpening directory { options, mapSize := size, handles := 1, shared := true }, .ok ())

/-- Opens a directory for reading that no handle holds. The lock file is made once there is a file of
databases. -/
def openFirstReadOnly (w : Workspace) (directory : Place) : Workspace × Except EngineError Unit :=
  match w.files.entry? (directory ++ [ledgerFileName]) with
  | none => (w, .error (.file .notFound))
  | some e =>
    match w.lock directory with
    | .error e => (w, .error e)
    | .ok w =>
      match e with
      | .ledger content => w.mapFile directory .readOnly content.mapSize
      | .directory => (w, .error (.file .isDirectory))
      | .file [] => (w, .error (.file .notWritable))
      | _ => (w, .error .invalid)

/-- Opens a directory for writing that no handle holds. The lock file is made first. -/
def openFirstWritable (w : Workspace) (directory : Place) (wanted databases : Nat) :
    Workspace × Except EngineError Unit :=
  let options : OpenOptions := .writable wanted databases
  let orDefault (mapSize : Nat) : Nat := if wanted = 0 then mapSize else wanted
  let create (w : Workspace) : Workspace × Except EngineError Unit :=
    let mapSize := orDefault defaultMapSize
    (w.putLedgerFile directory { mapSize }).mapFile directory options mapSize
  if wanted % PageSize.bytes ≠ 0 then (w, .error (.mapSize wanted))
  else
    match w.lock directory with
    | .error e => (w, .error e)
    | .ok w =>
      match w.files.entry? (directory ++ [ledgerFileName]) with
      | none => create w
      | some (.file []) => create w
      | some (.ledger content) => w.mapFile directory options (orDefault content.mapSize)
      | some .directory => (w, .error (.file .isDirectory))
      | some _ => (w, .error .invalid)

/-- Opens a directory once more, or for the first time. -/
def attach (w : Workspace) (directory : Place) (options : OpenOptions) :
    Workspace × Except EngineError Unit :=
  match w.openings[directory]? with
  | none =>
    match options with
    | .writable mapSize databases => w.openFirstWritable directory mapSize databases
    | .readOnly => w.openFirstReadOnly directory
  | some o =>
    if !o.shared then (w, .error .closing)
    else if o.options ≠ options then (w, .error .otherOptions)
    else (w.setOpening directory { o with handles := o.handles + 1 }, .ok ())

/-- Opens the directory to which a path leads. -/
def openAt (w : Workspace) (path : String) (options : OpenOptions) :
    Workspace × Except EngineError Handle :=
  match w.files.resolve path with
  | .error e => (w, .error (.file e))
  | .ok place =>
    let (w, result) := w.attach place options
    (w, result.map fun _ => { path, place, readOnly := options = .readOnly })

/-- Gives up one use of a directory. -/
def release (w : Workspace) (directory : Place) (shared : Bool) : Workspace :=
  match w.openings[directory]? with
  | none => w
  | some o =>
    if o.handles ≤ 1 ∧ !shared then { w with openings := w.openings.erase directory }
    else w.setOpening directory { o with handles := o.handles - 1, shared }

/-- Closes a handle. -/
def close (w : Workspace) (h : Handle) : Workspace := w.release h.place false

/-- Gives up a handle without closing it, so that its directory stays in use. -/
def abandon (w : Workspace) (h : Handle) : Workspace := w.release h.place true

/-- The number of bytes of the memory map of an open directory. -/
def mapSize (w : Workspace) (h : Handle) : Nat := ((w.openings[h.place]?).map Opening.mapSize).getD 0

/-- The tables of an open directory. -/
def environment (w : Workspace) (h : Handle) : MappedEnvironment :=
  let content := w.ledgerFile h.place
  { environment := { tables := content.tables, readOnly := h.readOnly }
    pages := content.pages
    mapSize := w.mapSize h }

/-- Replaces the databases of an open directory, if the pages have changed. -/
def commit (w : Workspace) (h : Handle) (content : LedgerFile) : Workspace :=
  let before := w.ledgerFile h.place
  if content.pages.writes = before.pages.writes then w
  else w.putLedgerFile h.place { content with mapSize := max before.mapSize (w.mapSize h) }

/-- Keeps the tables of an open directory. -/
def save (w : Workspace) (h : Handle) (m : MappedEnvironment) : Workspace :=
  if h.readOnly then w
  else
    w.commit h { w.ledgerFile h.place with tables := m.environment.tables, pages := m.pages }

/-- Makes those of the databases that are missing from an open directory. -/
def makeDatabases (w : Workspace) (h : Handle) (databases : List Database) :
    Except EngineError Workspace := do
  let content := w.ledgerFile h.place
  let missing := databases.filter fun database => database ∉ content.present
  let pages ← content.pages.transact (w.mapSize h / PageSize.bytes) (missing.forM Spending.addName)
  return w.commit h { content with present := content.present ++ missing, pages }

/-- Opens a directory for writing, and makes what is missing of it and of the databases. If there is no
room for them it stays in use. -/
def openComplete (w : Workspace) (path : String) (options : OpenOptions) (databases : List Database) :
    Workspace × Except EnvironmentError Handle :=
  match w.files.makeDirectories path with
  | (files, .error e) => ({ w with files }, .error (.cannotCreate e))
  | (files, .ok ()) =>
    match { w with files }.openAt path options with
    | (w, .error e) => (w, .error (.table (.engine e)))
    | (w, .ok h) =>
      match w.makeDatabases h databases with
      | .error e => (w.abandon h, .error (.table (.engine e)))
      | .ok w => (w, .ok h)

/-- Makes a directory with the given databases, and does not bring the layout up to date. -/
def makeLedger (w : Workspace) (path : String) (mapSize : Nat) (databases : List Database) :
    Workspace × Except EnvironmentError Unit :=
  match w.openComplete path (.writable mapSize databases.length) databases with
  | (w, .error e) => (w, .error e)
  | (w, .ok h) => (w.close h, .ok ())

/-- Opens a directory for writing. Makes what is missing, and brings the layout up to date. -/
def openLedger (w : Workspace) (path : String) (mapSize : Nat) :
    Workspace × Except EnvironmentError Handle :=
  match w.openComplete path (.writable mapSize maxDatabases) Database.all with
  | (w, .error e) => (w, .error e)
  | (w, .ok h) =>
    match Schema.migrate (w.environment h) with
    | .error e => (w.close h, .error e)
    | .ok m => (w.save h m, .ok h)

/-- The first database that a directory lacks. -/
def missingDatabase? (w : Workspace) (directory : Place) : Option Database :=
  Database.all.find? fun database => database ∉ (w.ledgerFile directory).present

/-- Opens a directory for reading. All its databases have to be there; a directory that lacks one
stays in use. -/
def openReadOnly (w : Workspace) (path : String) : Workspace × Except EnvironmentError Handle :=
  if !w.files.isDirectory path then (w, .error (.noDirectory path))
  else
    match w.openAt path .readOnly with
    | (w, .error e) => (w, .error (.table (.engine e)))
    | (w, .ok h) =>
      match w.missingDatabase? h.place with
      | some database => (w.abandon h, .error (.missingDatabase database))
      | none =>
        match Schema.check (w.environment h) with
        | .error e => (w.close h, .error e)
        | .ok _ => (w, .ok h)

end Workspace

end RingDepth
