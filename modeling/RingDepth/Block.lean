import RingDepth.Transaction

/-!
# Blocks

A block holds the transaction that mints its reward and the hashes of the transactions that it
confirms. Its height is the one that the reward is minted for.
-/

namespace RingDepth

/-- A block and its hash. The height is the one that the reward is minted for, and the first block has zero in
place of the hash of the block before it. -/
structure Block where
  hash : BlockHash
  height : UInt64
  majorVersion : UInt8
  minorVersion : UInt8
  timestamp : UInt64
  prevHash : BlockHash
  nonce : UInt32
  rewardTx : Transaction
  txHashes : List TxHash
deriving DecidableEq

namespace Block

/-- The record of a block. -/
def toRecord (b : Block) : BlockRecord where
  majorVersion := b.majorVersion
  minorVersion := b.minorVersion
  timestamp := b.timestamp
  prevHash := b.prevHash
  nonce := b.nonce
  rewardTx := b.rewardTx.toRecord
  txHashes := b.txHashes

/-- The stored form of a block. -/
def encode (b : Block) : Bytes := Codec.encode b.toRecord

/-- The height that a reward transaction is minted for: its only input has to mint. -/
def heightOfReward (t : Transaction) : Except CodecError UInt64 :=
  match t.inputs with
  | [.terminal height] => .ok height
  | inputs => .error (.malformedReward inputs.length)

/-- The block that a record stands for, under a given hash. -/
def named (hash : BlockHash) (r : BlockRecord) : Except CodecError Block := do
  let rewardTx ← Transaction.ofRecord r.rewardTx
  let height ← heightOfReward rewardTx
  return { hash, height, majorVersion := r.majorVersion, minorVersion := r.minorVersion,
           timestamp := r.timestamp, prevHash := r.prevHash, nonce := r.nonce, rewardTx,
           txHashes := r.txHashes }

/-- The block that a record stands for, named by the digest of the record's encoding. -/
def ofRecord (r : BlockRecord) : Except CodecError Block := named (.ofContent (Codec.encode r)) r

/-- The block at the front of stored bytes, named by the digest of all of them. -/
def decode (bs : Bytes) : Except CodecError Block :=
  match Codec.read bs with
  | .error e => .error (.decode e)
  | .ok r => named (.ofContent bs) r

/-- Makes a block of version 1.0. -/
def new (prevHash : BlockHash) (timestamp : UInt64) (rewardTx : Transaction)
    (txHashes : List TxHash) : Except CodecError Block :=
  ofRecord { majorVersion := 1, minorVersion := 0, timestamp, prevHash, nonce := 0,
             rewardTx := rewardTx.toRecord, txHashes }

end Block

end RingDepth
