import RingDepth.Codec

/-!
# Records

Transactions and blocks as they are stored. A record is wider than the transactions that a trace
understands: inputs of two older types still have a stored form, so that a ledger which holds them is
read and refused with the name of the type.
-/

namespace RingDepth

/-- An input as it is stored. -/
inductive InputRecord where
  /-- Mints the reward of the block at a height. -/
  | gen (height : UInt64)
  | toScript (prev : TxHash) (prevout : UInt64) (sigset : Bytes)
  | toScriptHash (prev : TxHash) (prevout : UInt64) (script sigset : Bytes)
  /-- Spends one of a ring of earlier outputs of one amount, given by relative offsets. -/
  | toKey (amount : UInt64) (keyOffsets : List UInt64) (keyImage : KeyImage)
deriving DecidableEq

/-- An output: an amount and the key that owns it. -/
structure Output where
  amount : UInt64
  key : PublicKey
deriving DecidableEq

/-- A transaction as it is stored. Its outputs are locked before a height or time, and its extra bytes have no
fixed meaning. -/
structure TxRecord where
  version : UInt8
  unlockTime : UInt64
  inputs : List InputRecord
  outputs : List Output
  extra : Bytes
deriving DecidableEq

/-- A block as it is stored: the reward transaction itself, and the hashes of the others. -/
structure BlockRecord where
  majorVersion : UInt8
  minorVersion : UInt8
  timestamp : UInt64
  prevHash : BlockHash
  nonce : UInt32
  rewardTx : TxRecord
  txHashes : List TxHash
deriving DecidableEq

namespace InputRecord

/-- The stored form of an input. -/
def encode : InputRecord → Bytes
  | gen height => Codec.encode (0 : UInt32) ++ Codec.encode height
  | toScript prev prevout sigset =>
    Codec.encode (1 : UInt32) ++ Codec.encode (prev, prevout, sigset)
  | toScriptHash prev prevout script sigset =>
    Codec.encode (2 : UInt32) ++ Codec.encode (prev, prevout, script, sigset)
  | toKey amount keyOffsets keyImage =>
    Codec.encode (3 : UInt32) ++ Codec.encode (amount, keyOffsets, keyImage)

/-- Takes an input off the front of the bytes. -/
def decode (bs : Bytes) : Except DecodeError (InputRecord × Bytes) := do
  let (tag, bs) ← Codec.decode (α := UInt32) bs
  if tag = 0 then
    let (height, bs) ← Codec.decode bs
    return (gen height, bs)
  else if tag = 1 then
    let ((prev, prevout, sigset), bs) ← Codec.decode bs
    return (toScript prev prevout sigset, bs)
  else if tag = 2 then
    let ((prev, prevout, script, sigset), bs) ← Codec.decode bs
    return (toScriptHash prev prevout script sigset, bs)
  else if tag = 3 then
    let ((amount, keyOffsets, keyImage), bs) ← Codec.decode bs
    return (toKey amount keyOffsets keyImage, bs)
  else
    .error (.unknownVariant tag 4)

instance : Codec InputRecord where
  encode := encode
  decode := decode

end InputRecord

instance : Codec Output :=
  Codec.ofFields (fun o => (o.amount, o.key)) fun (amount, key) => { amount, key }

instance : Codec TxRecord :=
  Codec.ofFields (fun r => (r.version, r.unlockTime, r.inputs, r.outputs, r.extra))
    fun (version, unlockTime, inputs, outputs, extra) =>
      { version, unlockTime, inputs, outputs, extra }

instance : Codec BlockRecord :=
  Codec.ofFields
    (fun r => (r.majorVersion, r.minorVersion, r.timestamp, r.prevHash, r.nonce, r.rewardTx,
      r.txHashes))
    fun (majorVersion, minorVersion, timestamp, prevHash, nonce, rewardTx, txHashes) =>
      { majorVersion, minorVersion, timestamp, prevHash, nonce, rewardTx, txHashes }

/-- The input types that have a stored form and cannot be traced. -/
inductive LegacyInput where
  | toScript
  | toScriptHash
deriving DecidableEq, Repr

/-- The name of an input type that cannot be traced. -/
def LegacyInput.name : LegacyInput → String
  | toScript => "to_script"
  | toScriptHash => "to_scripthash"

/-- Why stored bytes or a record make no transaction or block. -/
inductive CodecError where
  | decode (e : DecodeError)
  | unsupportedInput (kind : LegacyInput)
  /-- The reward transaction has other inputs than a single one that mints; how many it has. -/
  | malformedReward (inputs : Nat)
deriving DecidableEq, Repr

/-- The text of the error. -/
def CodecError.message : CodecError → String
  | .decode e => s!"failed to decode record: {e.message}"
  | .unsupportedInput kind => s!"unsupported input type: {kind.name}"
  | .malformedReward n =>
    s!"malformed block-reward transaction: expected a single terminal input, found {n} input(s)"

end RingDepth
