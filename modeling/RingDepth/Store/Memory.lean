import RingDepth.Store.Basic

/-!
# Stores in memory

Finite maps from keys to values. Writing whole blocks can be made to fail, to see what a failed write
leaves behind.
-/

namespace RingDepth

/-- A store in memory. An amount without outputs has no count, and writing a block may be made to fail. -/
structure Memory where
  blocks : Std.ExtTreeMap BlockHash Bytes := ∅
  heights : Std.ExtTreeMap UInt64 BlockHash := ∅
  transactions : Std.ExtTreeMap TxHash Bytes := ∅
  outputs : Std.ExtTreeMap OutputId OutputLocation := ∅
  outputCounts : Std.ExtTreeMap UInt64 UInt64 := ∅
  metadata : Std.ExtTreeMap String Bytes := ∅
  failWrites : Bool := false

namespace Memory

/-- The entry of a map, or an error that names what was sought. -/
def find {κ ν : Type} [Ord κ] [Std.TransOrd κ] (m : Std.ExtTreeMap κ ν) (k : κ) (sought : Missing) :
    Except StoreError ν :=
  match m[k]? with
  | some v => .ok v
  | none => .error (.notFound sought)

/-- The number that the next output of an amount gets. -/
def outputCount (s : Memory) (amount : UInt64) : UInt64 := s.outputCounts.getD amount 0

/-- Stores an encoded block and makes it the block at a height. -/
def insertBlock (s : Memory) (height : UInt64) (hash : BlockHash) (bytes : Bytes) : Memory :=
  { s with blocks := s.blocks.insert hash bytes, heights := s.heights.insert height hash }

/-- Stores an encoded transaction. -/
def insertTransaction (s : Memory) (hash : TxHash) (bytes : Bytes) : Memory :=
  { s with transactions := s.transactions.insert hash bytes }

/-- Stores the location of an output, and raises the number of outputs above its index. -/
def insertOutput (s : Memory) (id : OutputId) (location : OutputLocation) :
    Except (Halt StoreError) Memory := do
  let stored := { s with outputs := s.outputs.insert id location }
  if id.index < s.outputCount id.amount then
    return stored
  let count ← addCounter id.index 1
  return { stored with outputCounts := s.outputCounts.insert id.amount count }

/-- Outputs that are numbered but not stored yet, and the numbers that come behind them. -/
structure Staged where
  outputs : List (OutputId × OutputLocation) := []
  counts : Std.ExtTreeMap UInt64 UInt64 := ∅

/-- Numbers an output behind those of its amount that are staged, or else behind those that are stored. -/
def stage (s : Memory) (staged : Staged) (amount : UInt64) (location : OutputLocation) :
    Except (Halt StoreError) Staged := do
  let next := staged.counts.getD amount (s.outputCount amount)
  let count ← addCounter next 1
  return {
    outputs := staged.outputs ++ [(⟨amount, next⟩, location)]
    counts := staged.counts.insert amount count }

/-- Stores what is staged. -/
def extend (s : Memory) (staged : Staged) : Memory :=
  { s with
    outputs := s.outputs.insertMany staged.outputs
    outputCounts := s.outputCounts ∪ staged.counts }

/-- Stores all that a block adds. Its outputs are staged before a failure that was asked for. Heights are
counted in 64 bits, so there is no room for one more than a counter holds. -/
def writeBlock (s : Memory) (w : BlockWrite) : Except (Halt StoreError) Memory := do
  let staged ← w.outputs.foldlM (fun staged (amount, location) => s.stage staged amount location) {}
  if s.failWrites then
    throw (.failure (.backend (.injected w.height)))
  let filled := w.transactions.foldl (fun s (hash, bytes) => s.insertTransaction hash bytes) s
  let written := (filled.extend staged).insertBlock w.height w.hash w.bytes
  if UInt64.size ≤ written.heights.size then
    throw .overflow
  return written

/-- Removes a transaction and leaves what refers to it. -/
def eraseTransaction (s : Memory) (hash : TxHash) : Memory :=
  { s with transactions := s.transactions.erase hash }

/-- Replaces the bytes of a block and leaves the height index. -/
def replaceBlock (s : Memory) (hash : BlockHash) (bytes : Bytes) : Memory :=
  { s with blocks := s.blocks.insert hash bytes }

instance : Store Memory where
  block s hash := find s.blocks hash (.block hash)
  blockHash s height := find s.heights height (.height height)
  blockCount s := .ok (UInt64.ofNat s.heights.size)
  transaction s hash := find s.transactions hash (.transaction hash)
  hasTransaction s hash := .ok (s.transactions.contains hash)
  output s id := find s.outputs id (.output id)
  outputCount s amount := .ok (s.outputCount amount)
  metadata s key := find s.metadata key (.metadataKey key)
  insertBlock s height hash bytes := .ok (s.insertBlock height hash bytes)
  insertTransaction s hash bytes := .ok (s.insertTransaction hash bytes)
  insertOutput := insertOutput
  insertMetadata s key value := .ok { s with metadata := s.metadata.insert key value }
  writeBlock := writeBlock

end Memory

end RingDepth
