import RingDepth.Checkpoints.Basic
import RingDepth.Store.Basic

/-!
# Ledgers

A ledger is a store that grows by whole blocks, and a registry of checkpoints that its blocks have to
meet. The outputs of a block are numbered within their amounts in the order of its transactions, the
reward first, and of the outputs within each. This is the order to which ring offsets refer.
-/

namespace RingDepth

/-- How a list of transactions differs from the hash list of a block. -/
inductive ListMismatch where
  | length (listed supplied : Nat)
  | entry (position : Nat) (expected found : TxHash)
deriving DecidableEq

/-- The difference in words. -/
def ListMismatch.message : ListMismatch → String
  | length listed supplied => s!"block lists {listed} transaction(s), {supplied} supplied"
  | entry position expected found => s!"position {position}: expected {expected}, got {found}"

/-- Why a transaction may not stand beside the reward of a block. -/
inductive TransactionFault where
  | noInputs
  | mints
deriving DecidableEq, Repr

/-- The fault in words. -/
def TransactionFault.message : TransactionFault → String
  | noInputs => "transaction has no inputs"
  | mints => "only the block-reward transaction may mint"

/-- Why a ledger refuses a block or gives no answer. -/
inductive LedgerError where
  | heightMismatch (expected found : UInt64)
  | parentMismatch (height : UInt64) (expected found : BlockHash)
  | transactionMismatch (height : UInt64) (reason : ListMismatch)
  | duplicateTransaction (hash : TxHash)
  | invalidTransaction (hash : TxHash) (reason : TransactionFault)
  | checkpoint (e : CheckpointError)
  | storage (e : StoreError)
deriving DecidableEq

/-- The text of the error. -/
def LedgerError.message : LedgerError → String
  | heightMismatch expected found =>
    s!"block height mismatch: expected {expected}, found {found}"
  | parentMismatch height expected found =>
    s!"block {height} does not extend the chain: expected parent {expected}, found {found}"
  | transactionMismatch height reason =>
    s!"transactions supplied for block {height} do not match its hash list: {reason.message}"
  | duplicateTransaction hash => s!"transaction {hash} is already in the ledger"
  | invalidTransaction hash reason => s!"invalid transaction {hash}: {reason.message}"
  | checkpoint e => s!"checkpoint error: {e.message}"
  | storage e => s!"storage error: {e.message}"

/-- The number of blocks of a ledger and the hash of the last one. -/
structure LedgerSummary where
  blocks : UInt64
  topHash : Option BlockHash
deriving DecidableEq

/-- A store that grows by blocks, and the checkpoints that they have to meet. -/
structure Ledger (σ : Type) where
  store : σ
  checkpoints : Checkpoints := {}

namespace Ledger

variable {σ : Type} [Store σ]

/-- The number of blocks, which is the height of the next one. -/
def height (l : Ledger σ) : Except LedgerError UInt64 :=
  (Store.blockCount l.store).mapError LedgerError.storage

/-- The hash of the last block, if there is one. -/
def topHash (l : Ledger σ) : Except LedgerError (Option BlockHash) := do
  let height ← l.height
  if height = 0 then
    return none
  return some (← (Store.blockHash l.store (height - 1)).mapError LedgerError.storage)

/-- The number of blocks and the hash of the last one. -/
def summary (l : Ledger σ) : Except LedgerError LedgerSummary := do
  let blocks ← l.height
  let topHash ← l.topHash
  return { blocks, topHash }

/-- Whether a transaction is there. -/
def contains (l : Ledger σ) (hash : TxHash) : Except LedgerError Bool :=
  (Store.hasTransaction l.store hash).mapError LedgerError.storage

/-- Checks that a block continues the chain and meets the checkpoints. -/
def checkPlace (l : Ledger σ) (b : Block) : Except LedgerError Unit := do
  let expected ← l.height
  if b.height ≠ expected then
    throw (.heightMismatch expected b.height)
  let parent := (← l.topHash).getD .zero
  if b.prevHash ≠ parent then
    throw (.parentMismatch b.height parent b.prevHash)
  let _ ← (l.checkpoints.check b.height b.hash).mapError LedgerError.checkpoint

/-- Checks a transaction against the hash listed at its position. -/
def checkListed (l : Ledger σ) (b : Block) (position : Nat) (t : Transaction) (listed : TxHash) :
    Except LedgerError Unit := do
  if t.hash ≠ listed then
    throw (.transactionMismatch b.height (.entry position listed t.hash))
  if t.inputs.isEmpty then
    throw (.invalidTransaction t.hash .noInputs)
  if t.inputs.any Input.isTerminal then
    throw (.invalidTransaction t.hash .mints)
  if (← l.contains t.hash) || t.hash = b.rewardTx.hash then
    throw (.duplicateTransaction t.hash)

/-- Checks transactions against the hashes listed from a position on. -/
def checkAllListed (l : Ledger σ) (b : Block) (position : Nat) :
    List Transaction → List TxHash → Except LedgerError Unit
  | t :: ts, listed :: rest => do
    l.checkListed b position t listed
    l.checkAllListed b (position + 1) ts rest
  | _, _ => .ok ()

/-- The first hash that repeats one before it, among those given or after them. -/
def firstRepeated? (seen : List TxHash) : List TxHash → Option TxHash
  | [] => none
  | hash :: rest => if hash ∈ seen then some hash else firstRepeated? (hash :: seen) rest

/-- Checks the transactions of a block against its hash list and against what is there already. -/
def checkTransactions (l : Ledger σ) (b : Block) (ts : List Transaction) :
    Except LedgerError Unit := do
  if ts.length ≠ b.txHashes.length then
    throw (.transactionMismatch b.height (.length b.txHashes.length ts.length))
  if ← l.contains b.rewardTx.hash then
    throw (.duplicateTransaction b.rewardTx.hash)
  l.checkAllListed b 0 ts b.txHashes
  match firstRepeated? [] (ts.map Transaction.hash) with
  | some hash => throw (.duplicateTransaction hash)
  | none => return

end Ledger

/-- All that a block and its transactions add to a store. -/
def Block.toWrite (b : Block) (ts : List Transaction) : BlockWrite where
  height := b.height
  hash := b.hash
  bytes := b.encode
  transactions := (b.rewardTx :: ts).map fun t => (t.hash, t.encode)
  outputs := (b.rewardTx :: ts).flatMap fun t =>
    t.outputs.map fun output => (output.amount, { height := b.height, key := output.key })

namespace Ledger

variable {σ : Type} [Store σ]

/-- Appends a block with the transactions that it lists, in the order of its list. Nothing is written
unless every check passes. Gives the hash of the block and the new ledger. -/
def append (l : Ledger σ) (b : Block) (ts : List Transaction) :
    Except (Halt LedgerError) (BlockHash × Ledger σ) := do
  l.checkPlace b
  l.checkTransactions b ts
  let store ← Halt.within LedgerError.storage (Store.writeBlock l.store (b.toWrite ts))
  return (b.hash, { l with store })

end Ledger

end RingDepth
