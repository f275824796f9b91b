import RingDepth.Store.Batch

/-!
# Environments

An environment is what a program holds of a ledger directory while it is open: the tables, and whether
they may be written. Every write is a transaction of its own, so a write that fails leaves the tables
as they were.
-/

namespace RingDepth

/-- An open ledger directory. -/
structure Environment where
  tables : Tables := {}
  readOnly : Bool := false

namespace Environment

/-- Refuses to write where only reading is allowed. -/
def checkWritable (e : Environment) : Except TableError Unit :=
  if e.readOnly then .error (.engine .readOnly) else .ok ()

/-- Runs a write as a transaction of its own. -/
def transact (e : Environment) (f : Tables → Except (Halt TableError) Tables) :
    Except (Halt TableError) Environment := do
  e.checkWritable
  let tables ← f e.tables
  return { e with tables }

/-- Runs a batch, and keeps what it did if it is committed. -/
def runBatch (e : Environment) (steps : List BatchStep) (commit : Bool) :
    Except (Halt TableError) (List (Option UInt64) × Environment) := do
  e.checkWritable
  let (answers, tables) ← e.tables.runBatch steps
  return (answers, if commit then { e with tables } else e)

/-- Runs a write that does not count, with the errors of a store. -/
def write (e : Environment) (f : Tables → Except TableError Tables) :
    Except StoreError Environment := do
  e.checkWritable.mapError TableError.toStoreError
  let tables ← (f e.tables).mapError TableError.toStoreError
  return { e with tables }

/-- The value of a table under a key, or an error that names what was sought. -/
def find (t : Table) (key : Bytes) (sought : Missing) : Except StoreError Bytes :=
  match t[key]? with
  | some v => .ok v
  | none => .error (.notFound sought)

/-- The hash of the block at a height. -/
def blockHash (e : Environment) (height : UInt64) : Except StoreError BlockHash := do
  let bytes ← find e.tables.blockHeights (Tables.numberKey height) (.height height)
  match Identifier.ofBytes? bytes with
  | some hash => return hash
  | none => throw (.badHeightEntry height)

/-- The location of an output. -/
def output (e : Environment) (id : OutputId) : Except StoreError OutputLocation := do
  let bytes ← find e.tables.outputs (Tables.outputKey id) (.output id)
  (Codec.read bytes).mapError fun e => .undecodable (.location e)

/-- A bookkeeping value. -/
def metadata (e : Environment) (key : String) : Except StoreError Bytes := do
  let value ← (e.tables.metadata.find? (Bytes.ofText key)).mapError fun e => .backend (.engine e)
  match value with
  | some v => return v
  | none => throw (.notFound (.metadata key))

/-- Stores a bookkeeping value. -/
def insertMetadata (e : Environment) (key : String) (value : Bytes) :
    Except StoreError Environment :=
  e.write fun t => do
    let metadata ← (t.metadata.put (Bytes.ofText key) value).mapError TableError.engine
    return { t with metadata }

/-- Stores bytes in the table of a database as they are. -/
def insertRaw (e : Environment) (database : Database) (key value : Bytes) :
    Except TableError Environment := do
  e.checkWritable
  let table ← ((e.tables.table database).put key value).mapError TableError.engine
  return { e with tables := e.tables.withTable database table }

instance : Store Environment where
  block e hash := find e.tables.blocks hash.bytes (.block hash)
  blockHash := blockHash
  blockCount e := .ok (UInt64.ofNat e.tables.blockHeights.size)
  transaction e hash := find e.tables.transactions hash.bytes (.transaction hash)
  hasTransaction e hash := .ok (e.tables.transactions.contains hash.bytes)
  output := output
  outputCount e amount := (e.tables.outputCount amount).mapError TableError.toStoreError
  metadata := metadata
  insertBlock e height hash bytes := e.write fun t => .ok (t.insertBlock height hash bytes)
  insertTransaction e hash bytes := e.write fun t => .ok (t.insertTransaction hash bytes)
  insertOutput e id location :=
    Halt.within TableError.toStoreError (e.transact fun t => t.insertOutput id location)
  insertMetadata := insertMetadata
  writeBlock e w := Halt.within TableError.toStoreError (e.transact fun t => t.writeBlock w)

end Environment

end RingDepth
