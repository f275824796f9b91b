import RingDepth.Trace.Basic

/-!
# Owners of outputs

A ring offset names an output by its number within an amount. The store knows the block that created
it and its key; the transaction of this block that has an output with this key owns it.
-/

namespace RingDepth

/-- Whether a transaction has an output with a key. -/
def Transaction.owns (t : Transaction) (key : PublicKey) : Bool :=
  t.outputs.any fun output => output.key = key

namespace Trace

/-- Fetches a transaction. -/
def fetchTransaction (r : Reader) (hash : TxHash) : Traced Transaction := do
  Traced.spend { fetched := 1 }
  match r.transaction hash with
  | .ok (some t) => return t
  | .ok none => throw (.missingTransaction hash)
  | .error (.store e) => throw (.store e)
  | .error (.codec (.unsupportedInput kind)) => throw (.unsupportedInput hash kind)
  | .error (.codec e) => throw (.malformedTransaction hash (.codec e))

/-- Fetches the block at a height. -/
def fetchBlock (r : Reader) (height : UInt64) : Traced Block := do
  Traced.spend { scanned := 1 }
  match r.block height with
  | .ok (some b) => return b
  | .ok none => throw (.missingBlock height)
  | .error (.store e) => throw (.store e)
  | .error (.codec e) => throw (.malformedBlock height e)

/-- Looks up where an output lives. -/
def locate (r : Reader) (id : OutputId) : Traced OutputLocation := do
  Traced.spend { resolved := 1 }
  match r.output id with
  | .ok (some location) => return location
  | .ok none => throw (.missingOutput id)
  | .error e => throw (.store e)

/-- The first of the listed transactions that owns a key; those after it are not fetched. -/
def firstOwner (r : Reader) (key : PublicKey) : List TxHash → Traced (Option TxHash)
  | [] => return none
  | hash :: rest => do
    let t ← fetchTransaction r hash
    if t.owns key then
      return some t.hash
    firstOwner r key rest

/-- The only transaction that owns a key, among one found already and the listed ones. All of them are
fetched, and it is a failure if two differ. -/
def onlyOwner (r : Reader) (id : OutputId) (location : OutputLocation) :
    (known : Option TxHash) → List TxHash → Traced (Option TxHash)
  | known, [] => return known
  | known, hash :: rest => do
    let t ← fetchTransaction r hash
    if t.owns location.key then
      match known with
      | some first =>
        if first = t.hash then
          onlyOwner r id location known rest
        else
          throw (.ambiguousOwner id location.height first t.hash)
      | none => onlyOwner r id location (some t.hash) rest
    else
      onlyOwner r id location known rest

/-- The transaction of a block that owns an output. The reward comes before the listed ones. -/
def ownerIn (r : Reader) (policy : OwnerPolicy) (id : OutputId) (location : OutputLocation)
    (b : Block) : Traced (Option TxHash) :=
  let reward := if b.rewardTx.owns location.key then some b.rewardTx.hash else none
  match policy, reward with
  | .firstMatch, some hash => return some hash
  | .firstMatch, none => firstOwner r location.key b.txHashes
  | .rejectAmbiguous, known => onlyOwner r id location known b.txHashes

/-- The transaction that owns an output. -/
def findOwner (r : Reader) (policy : OwnerPolicy) (id : OutputId) : Traced TxHash := do
  let location ← locate r id
  let b ← fetchBlock r location.height
  match ← ownerIn r policy id location b with
  | some hash => return hash
  | none => throw (.ownerNotFound id location.height)

end Trace

end RingDepth
