import RingDepth.Block
import RingDepth.Files.Basic

/-!
# Stores

What a ledger keeps: encoded blocks and transactions under their hashes, the hash of the block at each
height, and for each amount the outputs of that amount in the order of their creation. Values cross
this boundary as bytes, so bytes that hold no record are found by whoever reads them.
-/

namespace RingDepth

/-- An output, by its number among the outputs of its amount. -/
structure OutputId where
  amount : UInt64
  index : UInt64
deriving DecidableEq, Repr

namespace OutputId

/-- Outputs are ordered by amount, and within an amount by number. -/
instance : Ord OutputId := ⟨compareLex (compareOn amount) (compareOn index)⟩

instance : Std.TransOrd OutputId :=
  inferInstanceAs (Std.TransCmp (compareLex (compareOn amount) (compareOn index)))

instance : Std.LawfulEqOrd OutputId where
  eq_of_compare {x y} h := by
    have h' : compareLex (compareOn amount) (compareOn index) x y = .eq := h
    rw [compareLex_eq_eq] at h'
    have ha : x.amount = y.amount := Std.LawfulEqCmp.eq_of_compare h'.1
    have hi : x.index = y.index := Std.LawfulEqCmp.eq_of_compare h'.2
    cases x
    cases y
    simp_all

end OutputId

/-- Where an output lives: the block that created it and the key that owns it. -/
structure OutputLocation where
  height : UInt64
  key : PublicKey
deriving DecidableEq

instance : Codec OutputLocation :=
  Codec.ofFields (fun l => (l.height, l.key)) fun (height, key) => { height, key }

/-- What a lookup did not find. -/
inductive Missing where
  | block (hash : BlockHash)
  | height (height : UInt64)
  | transaction (hash : TxHash)
  | output (id : OutputId)
  /-- The bookkeeping value with this key, among tables of bytes. -/
  | metadata (key : String)
  /-- The bookkeeping value with this key, in memory. -/
  | metadataKey (key : String)
deriving DecidableEq

/-- What was sought, in words. -/
def Missing.message : Missing → String
  | block hash => s!"block {hash}"
  | height h => s!"block at height {h}"
  | transaction hash => s!"transaction {hash}"
  | output id => s!"output {id.index} of amount {id.amount}"
  | metadata key => s!"meta {key}"
  | metadataKey key => s!"meta key '{key}'"

/-- Why the engine under a ledger directory refused an operation. -/
inductive EngineError where
  | readOnly
  | keyLength (found : Nat)
  /-- The directory is held open with other options. -/
  | otherOptions
  /-- The directory is held open by a handle that is being closed. -/
  | closing
  | file (e : FileError)
  | invalid
  | mapSize (bytes : Nat)
  /-- There is no room for the memory map among the addresses of the program. -/
  | noAddresses
  /-- The memory map has no room for another page. -/
  | mapFull
  | noDatabase (name : String)
deriving DecidableEq, Repr

/-- The text of the error. -/
def EngineError.message : EngineError → String
  | readOnly => "Permission denied (os error 13)"
  | keyLength _ => "MDB_BAD_VALSIZE: Unsupported size of key/DB name/data, or wrong DUPFIXED size"
  | otherOptions => "an environment is already opened with different options"
  | closing => "database is in a closing phase, you can't open it at the same time"
  | file e => e.message
  | invalid => "MDB_INVALID: File is not an LMDB file"
  | mapSize n => s!"map size ({n}) must be a multiple of the system page size (4096)"
  | noAddresses => "Cannot allocate memory (os error 12)"
  | mapFull => "MDB_MAP_FULL: Environment mapsize limit reached"
  | noDatabase name => s!"MDB_NOTFOUND: No matching key/data pair found: {name}"

/-- Why a backend could not do its work. -/
inductive BackendError where
  /-- Writing the block at this height was made to fail. -/
  | injected (height : UInt64)
  | engine (e : EngineError)
deriving DecidableEq, Repr

/-- The text of the error. -/
def BackendError.message : BackendError → String
  | injected height => s!"injected failure writing block {height}"
  | engine e => s!"LMDB error: {e.message}"

/-- Which stored value could not be read. -/
inductive Undecodable where
  /-- The layout version has another length than four bytes. -/
  | schemaVersion (found : Nat)
  | location (e : DecodeError)
  /-- The number of outputs of an amount has another length than eight bytes. -/
  | outputCount
  | record (e : CodecError)
deriving DecidableEq, Repr

/-- What is wrong with the value, in words. -/
def Undecodable.message : Undecodable → String
  | schemaVersion n => s!"schema version is {n} bytes, want 4"
  | location e => e.message
  | outputCount => "output count has unexpected byte length"
  | record e => e.message

/-- Why a store gave no answer. -/
inductive StoreError where
  | notFound (sought : Missing)
  | backend (e : BackendError)
  | undecodable (value : Undecodable)
  /-- The entry of the height index for this height holds no block hash. -/
  | badHeightEntry (height : UInt64)
deriving DecidableEq

/-- The text of the error. -/
def StoreError.message : StoreError → String
  | notFound sought => s!"not found: {sought.message}"
  | backend e => s!"backend failure: {e.message}"
  | undecodable value => s!"undecodable stored value: {value.message}"
  | badHeightEntry h =>
    s!"inconsistent ledger tables: height index entry {h} is not a 32-byte hash"

/-- All that one block adds to a store. Outputs come in the order in which they are numbered. -/
structure BlockWrite where
  height : UInt64
  hash : BlockHash
  bytes : Bytes
  transactions : List (TxHash × Bytes)
  outputs : List (UInt64 × OutputLocation)

/-- The lookups and writes of a store. The count of an amount is the number that its next output gets, and
storing an output raises the count above its index. -/
class Store (σ : Type) where
  block : σ → BlockHash → Except StoreError Bytes
  blockHash : σ → UInt64 → Except StoreError BlockHash
  blockCount : σ → Except StoreError UInt64
  transaction : σ → TxHash → Except StoreError Bytes
  hasTransaction : σ → TxHash → Except StoreError Bool
  output : σ → OutputId → Except StoreError OutputLocation
  outputCount : σ → UInt64 → Except StoreError UInt64
  metadata : σ → String → Except StoreError Bytes
  insertBlock : σ → UInt64 → BlockHash → Bytes → Except StoreError σ
  insertTransaction : σ → TxHash → Bytes → Except StoreError σ
  insertOutput : σ → OutputId → OutputLocation → Except (Halt StoreError) σ
  insertMetadata : σ → String → Bytes → Except StoreError σ
  writeBlock : σ → BlockWrite → Except (Halt StoreError) σ

/-- The encoded block at a height. -/
def Store.blockAt {σ : Type} [Store σ] (s : σ) (height : UInt64) : Except StoreError Bytes := do
  let hash ← Store.blockHash s height
  Store.block s hash

end RingDepth
