import RingDepth.Store.Environment
import RingDepth.Store.LedgerFile

/-!
# Environments in a memory map

An environment whose ledger file is reached through a memory map of some size. Every write is carried out
on the tables and on the pages of the file, and fails as a whole if the map has no room for the pages.
-/

namespace RingDepth

/-- An entry that is put into a database, with the length of its value. -/
structure TablePut where
  database : Database
  key : Bytes
  size : Nat
deriving DecidableEq

namespace Tables

/-- The entries that storing the location of an output puts. -/
def putsOfOutput (t : Tables) (id : OutputId) (location : OutputLocation) : List TablePut :=
  let stored : TablePut := ⟨.outputs, outputKey id, (Codec.encode location).length⟩
  match t.outputCount id.amount with
  | .ok count =>
    if id.index < count then [stored] else [stored, ⟨.outputCounts, numberKey id.amount, 8⟩]
  | .error _ => [stored]

/-- The entries that an operation puts. -/
def putsOfStep (t : Tables) : BatchStep → List TablePut
  | .insertBlock height hash bytes =>
    [⟨.blocks, hash.bytes, bytes.length⟩, ⟨.blockHeights, numberKey height, hash.bytes.length⟩]
  | .insertTransaction hash bytes => [⟨.transactions, hash.bytes, bytes.length⟩]
  | .insertOutput id location => t.putsOfOutput id location
  | .appendOutput amount location =>
    match t.outputCount amount with
    | .ok count => t.putsOfOutput ⟨amount, count⟩ location
    | .error _ => []
  | .outputCount _ => []

/-- The entries that operations put one after the other. -/
def putsOf (t : Tables) : List BatchStep → List TablePut
  | [] => []
  | s :: rest =>
    t.putsOfStep s ++
      match t.step s with
      | .ok (_, t) => t.putsOf rest
      | .error _ => []

end Tables

/-- The operations that add what a block adds. -/
def BlockWrite.steps (w : BlockWrite) : List BatchStep :=
  w.transactions.map (fun (hash, bytes) => .insertTransaction hash bytes) ++
    w.outputs.map (fun (amount, location) => .appendOutput amount location) ++
    [.insertBlock w.height w.hash w.bytes]

/-- Puts entries into a file of pages, as one write. -/
def PageFile.putAll (f : PageFile) (mapSize : Nat) (puts : List TablePut) :
    Except EngineError PageFile :=
  f.transact (mapSize / PageSize.bytes) <|
    puts.forM fun put => Spending.put (.entries put.database) put.key put.size

/-- An environment, the pages of its file and the size of its memory map in bytes. -/
structure MappedEnvironment where
  environment : Environment
  pages : PageFile
  mapSize : Nat

namespace MappedEnvironment

/-- Keeps the outcome of a write that puts entries, if there is room for them. -/
def keep (m : MappedEnvironment) (puts : List TablePut) (e : Environment) :
    Except TableError MappedEnvironment := do
  let pages ← (m.pages.putAll m.mapSize puts).mapError TableError.engine
  return { m with environment := e, pages }

/-- Stores bytes in the table of a database as they are. -/
def insertRaw (m : MappedEnvironment) (database : Database) (key value : Bytes) :
    Except TableError MappedEnvironment := do
  m.keep [⟨database, key, value.length⟩] (← m.environment.insertRaw database key value)

/-- Runs a batch, and keeps what it did if it is committed. -/
def runBatch (m : MappedEnvironment) (steps : List BatchStep) (commit : Bool) :
    Except (Halt TableError) (List (Option UInt64) × MappedEnvironment) := do
  let (answers, e) ← m.environment.runBatch steps commit
  let kept ← m.keep (m.environment.tables.putsOf steps) e
  return (answers, if commit then kept else m)

/-- Keeps the outcome of operations of a store, if there is room for what they put. -/
def store (m : MappedEnvironment) (steps : List BatchStep) (e : Environment) :
    Except StoreError MappedEnvironment :=
  (m.keep (m.environment.tables.putsOf steps) e).mapError TableError.toStoreError

instance : Store MappedEnvironment where
  block m := Store.block m.environment
  blockHash m := Store.blockHash m.environment
  blockCount m := Store.blockCount m.environment
  transaction m := Store.transaction m.environment
  hasTransaction m := Store.hasTransaction m.environment
  output m := Store.output m.environment
  outputCount m := Store.outputCount m.environment
  metadata m := Store.metadata m.environment
  insertBlock m height hash bytes := do
    m.store [.insertBlock height hash bytes] (← Store.insertBlock m.environment height hash bytes)
  insertTransaction m hash bytes := do
    m.store [.insertTransaction hash bytes] (← Store.insertTransaction m.environment hash bytes)
  insertOutput m id location := do
    let e ← Store.insertOutput m.environment id location
    m.store [.insertOutput id location] e
  insertMetadata m key value := do
    let e ← Store.insertMetadata m.environment key value
    (m.keep [⟨.metadata, Bytes.ofText key, value.length⟩] e).mapError TableError.toStoreError
  writeBlock m w := do
    let e ← Store.writeBlock m.environment w
    m.store w.steps e

end MappedEnvironment

end RingDepth
