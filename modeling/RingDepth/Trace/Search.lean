import Std.Data.ExtTreeSet
import RingDepth.Trace.Owner

/-!
# Searching for the nearest reward

A trace goes back from a transaction to the owners of all outputs that its rings name, from these to
the owners of theirs, and so on. The depth of a transaction is the least number of such steps to one
that mints. The search goes level by level in the order of the hashes and expands no transaction
twice. A level is expanded as a whole: also after a transaction that mints was met, a failure at
another one of the level ends the trace.

A run traces one transaction, or all those that a block confirms.
-/

namespace RingDepth

/-- What the expansion of some transactions found: whether one of them mints, and the owners of the outputs
that their rings name. -/
structure Expansion where
  minted : Bool := false
  owners : List TxHash := []
deriving DecidableEq

namespace Expansion

instance : Append Expansion := ⟨fun x y => ⟨x.minted || y.minted, x.owners ++ y.owners⟩⟩

/-- One of the transactions mints if one does in either part. -/
@[simp] theorem minted_append (x y : Expansion) : (x ++ y).minted = (x.minted || y.minted) := rfl

/-- The owners found in the second part come behind those found in the first. -/
@[simp] theorem owners_append (x y : Expansion) : (x ++ y).owners = x.owners ++ y.owners := rfl

end Expansion

/-- The depth of a transaction, and the work that finding it took. -/
structure TraceOutcome where
  start : TxHash
  depth : Nat
  work : Work
deriving DecidableEq

namespace Trace

/-- The indices that a ring names. -/
def ringOf (hash : TxHash) (keyOffsets : List UInt64) : Traced (List UInt64) :=
  match Offsets.toAbsolute keyOffsets with
  | .ok indices => return indices
  | .error e => throw (.malformedTransaction hash (.offsets e))

/-- Finds the owners of the outputs of an amount. -/
def ownersOf (r : Reader) (policy : OwnerPolicy) (amount : UInt64) :
    List UInt64 → Traced (List TxHash)
  | [] => return []
  | index :: rest => do
    let owner ← findOwner r policy ⟨amount, index⟩
    let owners ← ownersOf r policy amount rest
    return owner :: owners

/-- Expands the inputs of a transaction up to the first that mints. -/
def expandInputs (r : Reader) (policy : OwnerPolicy) (hash : TxHash) :
    List Input → Traced Expansion
  | [] => return {}
  | .terminal _ :: _ => return { minted := true }
  | .keyed amount keyOffsets _ :: rest => do
    let ring ← ringOf hash keyOffsets
    let owners ← ownersOf r policy amount ring
    let expansion ← expandInputs r policy hash rest
    return { owners } ++ expansion

/-- Expands a transaction. -/
def expand (r : Reader) (policy : OwnerPolicy) (hash : TxHash) : Traced Expansion := do
  let t ← fetchTransaction r hash
  expandInputs r policy hash t.inputs

/-- Expands all transactions of a level. -/
def expandAll (r : Reader) (policy : OwnerPolicy) : List TxHash → Traced Expansion
  | [] => return {}
  | hash :: rest => do
    let expansion ← expand r policy hash
    let others ← expandAll r policy rest
    return expansion ++ others

/-- The owners that were not met before. -/
def unmet (met : Std.ExtTreeSet TxHash) (owners : List TxHash) : Std.ExtTreeSet TxHash :=
  .ofList (owners.filter fun hash => !met.contains hash)

/-- Whether a depth is greater than the settings allow. -/
def exceeds (c : TraceConfig) (depth : Nat) : Option UInt64 :=
  c.maxDepth.filter fun limit => limit.toNat < depth

/-- Searches from a level on. Every level but the last adds to the transactions that were met, so the
number of transactions that there can be bounds the number of levels. -/
def search (r : Reader) (c : TraceConfig) (start : TxHash) :
    (fuel : Nat) → (frontier met : Std.ExtTreeSet TxHash) → (depth : Nat) → Traced Nat
  | 0, _, _, depth => throw (.exhausted start depth)
  | fuel + 1, frontier, met, depth => do
    let level ← expandAll r c.ownerPolicy frontier.toList
    if level.minted then
      return depth
    let next := unmet met level.owners
    if next.isEmpty then
      throw (.exhausted start depth)
    match exceeds c (depth + 1) with
    | some limit => throw (.depthLimit start limit)
    | none => search r c start fuel next (met.insertMany next.toList) (depth + 1)

/-- The number of hashes that there are. -/
def hashCount : Nat := Nat.pow 256 32

end Trace

/-- Finds the depth of a transaction. -/
def trace (r : Reader) (c : TraceConfig) (start : TxHash) : Except TraceError TraceOutcome :=
  let first := Std.ExtTreeSet.ofList [start]
  (Trace.search r c start Trace.hashCount first first 0).map fun (depth, work) =>
    { start, depth, work }

/-- Finds the depths of transactions in order; the first failure ends the run. -/
def traceAll (r : Reader) (c : TraceConfig) (starts : List TxHash) :
    Except TraceError (List TraceOutcome) :=
  starts.mapM (trace r c)

/-- Where a run starts. -/
inductive StartPoint where
  | transaction (hash : TxHash)
  | block (height : UInt64)
deriving DecidableEq

namespace StartPoint

/-- The start in words. -/
def toText : StartPoint → String
  | transaction hash => s!"transaction {hash}"
  | block height => s!"block {height}"

/-- The transactions to trace: those of a block in its order, and the reward last if it is wanted. A
single transaction is not looked up. -/
def transactions (r : Reader) (includeReward : Bool) : StartPoint → Except TraceError (List TxHash)
  | transaction hash => .ok [hash]
  | block height =>
    match r.block height with
    | .ok none => .error (.missingBlock height)
    | .error (.store e) => .error (.store e)
    | .error (.codec e) => .error (.malformedBlock height e)
    | .ok (some b) =>
      let hashes := if includeReward then b.txHashes ++ [b.rewardTx.hash] else b.txHashes
      if hashes.isEmpty then .error (.nothingToTrace height) else .ok hashes

end StartPoint

end RingDepth
