import RingDepth.Store.Basic

/-!
# The tables of a ledger directory

A ledger directory holds named databases, each an ordered table from byte strings to byte strings.
Integers in keys have their most significant byte first, so that a table walks in numeric order.

| database | key | value |
|---|---|---|
| `blocks` | block hash | encoded block |
| `block_heights` | height | block hash |
| `transactions` | transaction hash | encoded transaction |
| `outputs` | amount, index | encoded location |
| `output_counts` | amount | number of outputs, most significant byte first |
| `meta` | text | bytes |
-/

namespace RingDepth

/-- An ordered table of byte strings. -/
abbrev Table := Std.ExtTreeMap Bytes Bytes

/-- The databases of a ledger. -/
inductive Database where
  | blocks
  | blockHeights
  | transactions
  | outputs
  | outputCounts
  | metadata
deriving DecidableEq, Repr

namespace Database

/-- The name under which the database is kept. -/
def name : Database → String
  | blocks => "blocks"
  | blockHeights => "block_heights"
  | transactions => "transactions"
  | outputs => "outputs"
  | outputCounts => "output_counts"
  | metadata => "meta"

/-- All databases, in the order in which they are opened. -/
def all : List Database := [blocks, blockHeights, transactions, outputs, outputCounts, metadata]

end Database

/-- The tables of the six databases. -/
structure Tables where
  blocks : Table := ∅
  blockHeights : Table := ∅
  transactions : Table := ∅
  outputs : Table := ∅
  outputCounts : Table := ∅
  metadata : Table := ∅
deriving DecidableEq

/-- Why an operation on the tables failed. -/
inductive TableError where
  | engine (e : EngineError)
  /-- A number of outputs has another length than eight bytes. -/
  | outputCount
deriving DecidableEq, Repr

namespace TableError

/-- The text of the error. -/
def message : TableError → String
  | engine e => s!"LMDB error: {e.message}"
  | outputCount => "serialization error: output count has unexpected byte length"

/-- The error as that of a store. -/
def toStoreError : TableError → StoreError
  | engine e => .backend (.engine e)
  | outputCount => .undecodable .outputCount

end TableError

/-- The greatest length of a key. -/
def Table.maxKeyLength : Nat := 511

/-- Stores a value under a key, which must not be empty or too long. -/
def Table.put (t : Table) (key value : Bytes) : Except EngineError Table :=
  if key.length = 0 ∨ maxKeyLength < key.length then .error (.keyLength key.length)
  else .ok (t.insert key value)

/-- The value under a key, which must not be empty. -/
def Table.find? (t : Table) (key : Bytes) : Except EngineError (Option Bytes) :=
  if key.length = 0 then .error (.keyLength 0) else .ok t[key]?

namespace Tables

/-- The table of a database. -/
def table (t : Tables) : Database → Table
  | .blocks => t.blocks
  | .blockHeights => t.blockHeights
  | .transactions => t.transactions
  | .outputs => t.outputs
  | .outputCounts => t.outputCounts
  | .metadata => t.metadata

/-- Replaces the table of a database. -/
def withTable (t : Tables) (database : Database) (table : Table) : Tables :=
  match database with
  | .blocks => { t with blocks := table }
  | .blockHeights => { t with blockHeights := table }
  | .transactions => { t with transactions := table }
  | .outputs => { t with outputs := table }
  | .outputCounts => { t with outputCounts := table }
  | .metadata => { t with metadata := table }

/-- A number as a key. -/
def numberKey (n : UInt64) : Bytes := Bytes.bigEndian 8 n.toNat

/-- An output as a key. -/
def outputKey (id : OutputId) : Bytes := numberKey id.amount ++ numberKey id.index

/-- The number that a key or a count of eight bytes stands for. -/
def number? (bs : Bytes) : Option UInt64 :=
  if bs.length = 8 then some (UInt64.ofNat (Bytes.ofBigEndian bs)) else none

/-- Stores an encoded block and points its height at it. -/
def insertBlock (t : Tables) (height : UInt64) (hash : BlockHash) (bytes : Bytes) : Tables :=
  { t with
    blocks := t.blocks.insert hash.bytes bytes
    blockHeights := t.blockHeights.insert (numberKey height) hash.bytes }

/-- Stores an encoded transaction. -/
def insertTransaction (t : Tables) (hash : TxHash) (bytes : Bytes) : Tables :=
  { t with transactions := t.transactions.insert hash.bytes bytes }

/-- The number that the next output of an amount gets. -/
def outputCount (t : Tables) (amount : UInt64) : Except TableError UInt64 :=
  match t.outputCounts[numberKey amount]? with
  | none => .ok 0
  | some bytes =>
    match number? bytes with
    | some n => .ok n
    | none => .error .outputCount

/-- Stores the location of an output, and raises the number of outputs above its index. -/
def insertOutput (t : Tables) (id : OutputId) (location : OutputLocation) :
    Except (Halt TableError) Tables := do
  let stored := { t with outputs := t.outputs.insert (outputKey id) (Codec.encode location) }
  let count ← stored.outputCount id.amount
  if id.index < count then
    return stored
  let next ← addCounter id.index 1
  return { stored with
    outputCounts := t.outputCounts.insert (numberKey id.amount) (numberKey next) }

/-- Stores the location of the next output of an amount, and gives its number. -/
def appendOutput (t : Tables) (amount : UInt64) (location : OutputLocation) :
    Except (Halt TableError) (UInt64 × Tables) := do
  let index ← t.outputCount amount
  let t ← t.insertOutput ⟨amount, index⟩ location
  return (index, t)

/-- Stores all that a block adds. Heights are counted in 64 bits, so there is no room for one more than
a counter holds. -/
def writeBlock (t : Tables) (w : BlockWrite) : Except (Halt TableError) Tables := do
  let filled := w.transactions.foldl (fun t (hash, bytes) => t.insertTransaction hash bytes) t
  let numbered ← w.outputs.foldlM
    (fun t (amount, location) => (t.appendOutput amount location).map Prod.snd) filled
  let written := numbered.insertBlock w.height w.hash w.bytes
  if UInt64.size ≤ written.blockHeights.size then
    throw .overflow
  return written

end Tables

end RingDepth
