import RingDepth.Store.Basic

/-!
# Decoded reading

Lookups that decode what they find. That nothing is found is an answer here and no error.
-/

namespace RingDepth

/-- Why a decoded lookup gave no answer. -/
inductive ReadError where
  | store (e : StoreError)
  | codec (e : CodecError)
deriving DecidableEq

/-- The text of the error. -/
def ReadError.message : ReadError → String
  | store e => e.message
  | codec e => e.message

/-- The lookups that a trace needs. -/
structure Reader where
  transaction : TxHash → Except ReadError (Option Transaction)
  block : UInt64 → Except ReadError (Option Block)
  output : OutputId → Except StoreError (Option OutputLocation)
  height : Except StoreError UInt64

namespace Reader

/-- An answer of a store, where finding nothing is an answer too. -/
def found {α : Type} : Except StoreError α → Except StoreError (Option α)
  | .ok a => .ok (some a)
  | .error (.notFound _) => .ok none
  | .error e => .error e

/-- Decodes the bytes that were found, if any. -/
def decoded {α : Type} (decode : Bytes → Except CodecError α) :
    Except StoreError (Option Bytes) → Except ReadError (Option α)
  | .ok (some bytes) => ((decode bytes).mapError ReadError.codec).map some
  | .ok none => .ok none
  | .error e => .error (.store e)

/-- The reader of a store. -/
def ofStore {σ : Type} [Store σ] (s : σ) : Reader where
  transaction hash := decoded Transaction.decode (found (Store.transaction s hash))
  block height := decoded Block.decode (found (Store.blockAt s height))
  output id := found (Store.output s id)
  height := Store.blockCount s

end Reader

end RingDepth
