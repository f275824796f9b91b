import RingDepth.Offsets
import RingDepth.Record

/-!
# Transactions

A transaction is a record whose inputs can all be traced, together with its hash. Read from stored
bytes, it is named by the digest of exactly these bytes; made from a record, by the digest of the
record's encoding.
-/

namespace RingDepth

/-- An input that a trace understands. -/
inductive Input where
  /-- Mints the reward of the block at a height, and ends every trace. -/
  | terminal (height : UInt64)
  /-- Spends one of a ring of earlier outputs of one amount, given by relative offsets. -/
  | keyed (amount : UInt64) (keyOffsets : List UInt64) (keyImage : KeyImage)
deriving DecidableEq

namespace Input

/-- The input that a record stands for. -/
def ofRecord : InputRecord → Except CodecError Input
  | .gen height => .ok (.terminal height)
  | .toKey amount keyOffsets keyImage => .ok (.keyed amount keyOffsets keyImage)
  | .toScript .. => .error (.unsupportedInput .toScript)
  | .toScriptHash .. => .error (.unsupportedInput .toScriptHash)

/-- The stored form of an input. -/
def toRecord : Input → InputRecord
  | terminal height => .gen height
  | keyed amount keyOffsets keyImage => .toKey amount keyOffsets keyImage

/-- Whether the input mints. -/
def isTerminal : Input → Bool
  | terminal _ => true
  | keyed .. => false

/-- The indices of the outputs that the input may spend; one that mints spends none. -/
def absoluteOffsets : Input → Except OffsetsError (List UInt64)
  | terminal _ => .ok []
  | keyed _ keyOffsets _ => Offsets.toAbsolute keyOffsets

end Input

/-- A transaction and its hash. -/
structure Transaction where
  hash : TxHash
  version : UInt8
  unlockTime : UInt64
  inputs : List Input
  outputs : List Output
  extra : Bytes
deriving DecidableEq

namespace Transaction

/-- The version of the format in which transactions are made. -/
def currentVersion : UInt8 := 2

/-- The number of blocks for which the outputs of a reward are locked. -/
def rewardLock : UInt64 := 60

/-- The record of a transaction. -/
def toRecord (t : Transaction) : TxRecord where
  version := t.version
  unlockTime := t.unlockTime
  inputs := t.inputs.map Input.toRecord
  outputs := t.outputs
  extra := t.extra

/-- The stored form of a transaction. -/
def encode (t : Transaction) : Bytes := Codec.encode t.toRecord

/-- The transaction that a record stands for, under a given hash. -/
def named (hash : TxHash) (r : TxRecord) : Except CodecError Transaction :=
  (r.inputs.mapM Input.ofRecord).map fun inputs =>
    { hash, version := r.version, unlockTime := r.unlockTime, inputs, outputs := r.outputs,
      extra := r.extra }

/-- The transaction that a record stands for, named by the digest of the record's encoding. -/
def ofRecord (r : TxRecord) : Except CodecError Transaction :=
  named (.ofContent (Codec.encode r)) r

/-- The transaction at the front of stored bytes, named by the digest of all of them. -/
def decode (bs : Bytes) : Except CodecError Transaction :=
  match Codec.read bs with
  | .error e => .error (.decode e)
  | .ok r => named (.ofContent bs) r

/-- Makes a transaction of the current version. -/
def new (unlockTime : UInt64) (inputs : List Input) (outputs : List Output) (extra : Bytes) :
    Transaction :=
  let record : TxRecord :=
    { version := currentVersion, unlockTime, inputs := inputs.map Input.toRecord, outputs, extra }
  { hash := .ofContent (Codec.encode record), version := currentVersion, unlockTime, inputs,
    outputs, extra }

/-- Makes the transaction that mints the reward at a height, unless its lock would pass the greatest
height. -/
def reward? (height : UInt64) (outputs : List Output) : Option Transaction :=
  (addChecked? height rewardLock).map fun unlockTime => new unlockTime [.terminal height] outputs []

/-- Whether the first input mints. -/
def isReward (t : Transaction) : Bool := (t.inputs.head?.map Input.isTerminal).getD false

end Transaction

end RingDepth
