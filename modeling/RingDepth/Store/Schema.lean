import RingDepth.Files.Basic
import RingDepth.Store.Environment

/-!
# Layout versions

A store remembers the version of its layout as a bookkeeping value of four bytes; a store that has
none is of version 0. A layout newer than the current version is refused.
-/

namespace RingDepth

/-- Why an environment could not be opened or brought up to date. -/
inductive EnvironmentError where
  | table (e : TableError)
  | version (e : StoreError)
  | noDirectory (path : String)
  | cannotCreate (reason : FileError)
  | missingDatabase (database : Database)
  | schemaTooNew (found supported : UInt32)

/-- The text of the error. -/
def EnvironmentError.message : EnvironmentError → String
  | .table e => e.message
  | .version e => s!"LMDB error: {e.message}"
  | .noDirectory path => s!"I/O error: ledger directory {path} does not exist"
  | .cannotCreate reason => s!"I/O error: {reason.message}"
  | .missingDatabase database => s!"database '{database.name}' is missing from the environment"
  | .schemaTooNew found supported =>
    s!"database schema version {found} is newer than supported version {supported}"

namespace Schema

variable {σ : Type} [Store σ]

/-- The key of the layout version. -/
def key : String := "schema_version"

/-- The version of the layout that is written. -/
def current : UInt32 := 1

/-- The layout version of a store. -/
def version (s : σ) : Except StoreError UInt32 :=
  match Store.metadata s key with
  | .error (.notFound _) => .ok 0
  | .error e => .error e
  | .ok bytes =>
    if bytes.length = 4 then .ok (UInt32.ofNat (Bytes.ofLittleEndian bytes))
    else .error (.undecodable (.schemaVersion bytes.length))

/-- Records a layout version. -/
def setVersion (s : σ) (version : UInt32) : Except StoreError σ :=
  Store.insertMetadata s key (Bytes.littleEndian 4 version.toNat)

/-- The layout version of a store, unless it is newer than the current one. -/
def check (s : σ) : Except EnvironmentError UInt32 := do
  let found ← (version s).mapError EnvironmentError.version
  if current < found then
    throw (.schemaTooNew found current)
  return found

/-- Brings a store to the current layout. The only step, from version 0, changes nothing but the
version. -/
def migrate (s : σ) : Except EnvironmentError σ := do
  let found ← check s
  if found = current then
    return s
  (setVersion s current).mapError EnvironmentError.version

end Schema

end RingDepth
