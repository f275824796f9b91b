import RingDepth.Files.Basic
import RingDepth.Ledger.Reader
import RingDepth.Spent.Listing

/-!
# Counting spent outputs in a ledger

Every keyed input of an amount other than zero spends one output of that amount. Amounts that only
occur as outputs are counted as zero. The outputs of a reward of version 2 or later hide their amounts
and do not count.
-/

namespace RingDepth

/-- Why spent outputs could not be counted. -/
inductive SpentError where
  | missingBlock (height : UInt64)
  | missingTransaction (hash : TxHash)
  | file (path : String) (e : FileError)
  | read (e : ReadError)
deriving DecidableEq

/-- The text of the error. -/
def SpentError.message : SpentError → String
  | missingBlock height => s!"block at height {height} is missing from the main chain"
  | missingTransaction hash => s!"transaction {hash} listed in a block is missing"
  | file path e => s!"failed to read known spent outputs: {path}: {e.message}"
  | read e => e.message

namespace SpentCounts

/-- Gives an amount other than zero an entry, with zero outputs if it has none. -/
def mention (counts : SpentCounts) (amount : UInt64) : SpentCounts :=
  if amount = 0 then counts else counts.insertIfNew amount 0

/-- Counts what an input spends. -/
def addInput (counts : SpentCounts) : Input → Except (Halt SpentError) SpentCounts
  | .terminal _ => .ok counts
  | .keyed amount _ _ => if amount = 0 then .ok counts else counts.add amount 1

/-- Whether the amounts of the outputs of a transaction are hidden. -/
def hidesAmounts (t : Transaction) : Bool := t.isReward && decide (2 ≤ t.version)

/-- Counts what a transaction spends, and mentions the amounts of its outputs. -/
def addTransaction (counts : SpentCounts) (t : Transaction) :
    Except (Halt SpentError) SpentCounts := do
  let counts ← t.inputs.foldlM addInput counts
  if hidesAmounts t then
    return counts
  return t.outputs.foldl (fun counts output => counts.mention output.amount) counts

/-- Fetches the transactions that a block lists. -/
def listed (r : Reader) (hashes : List TxHash) : Except SpentError (List Transaction) :=
  hashes.mapM fun hash =>
    match r.transaction hash with
    | .ok (some t) => .ok t
    | .ok none => .error (.missingTransaction hash)
    | .error e => .error (.read e)

/-- Fetches the transactions of the block at a height, the reward first. -/
def transactionsAt (r : Reader) (height : UInt64) : Except SpentError (List Transaction) :=
  match r.block height with
  | .ok (some b) => (listed r b.txHashes).map (b.rewardTx :: ·)
  | .ok none => .error (.missingBlock height)
  | .error e => .error (.read e)

/-- Counts what the transactions of the block at a height spend. -/
def addBlock (r : Reader) (counts : SpentCounts) (height : UInt64) :
    Except (Halt SpentError) SpentCounts := do
  let ts ← transactionsAt r height
  ts.foldlM addTransaction counts

/-- Counts what the next blocks spend, `blocks` of them from a height on. -/
def addBlocks (r : Reader) : (blocks : Nat) → (height : UInt64) → SpentCounts →
    Except (Halt SpentError) SpentCounts
  | 0, _, counts => .ok counts
  | blocks + 1, height, counts => do
    addBlocks r blocks (height + 1) (← addBlock r counts height)

/-- The number of blocks of a ledger. -/
def blockCount (r : Reader) : Except SpentError UInt64 :=
  r.height.mapError fun e => .read (.store e)

/-- Counts what all transactions of a ledger spend. -/
def scan (r : Reader) : Except (Halt SpentError) SpentCounts := do
  let height ← blockCount r
  addBlocks r height.toNat 0 ∅

end SpentCounts

end RingDepth
