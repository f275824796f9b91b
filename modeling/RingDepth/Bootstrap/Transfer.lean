import RingDepth.Bootstrap.Writer

/-!
# Moving blocks between ledgers

An export writes the blocks of a ledger to a bootstrap file, from the height where the file ends. The
blocks of a file are imported by appending them to a ledger; those below its height are skipped. Both
keep what they did before a failure.
-/

namespace RingDepth

/-- What an export wrote: the number of blocks, from the height at which it began, and the last height that
was asked for. -/
structure ExportSummary where
  first : UInt64
  last : UInt64
  written : Nat
deriving DecidableEq, Repr

/-- What an import did: the number of blocks that it appended, and of those that were below the height of the
ledger. -/
structure ImportSummary where
  imported : Nat := 0
  skipped : Nat := 0
deriving DecidableEq, Repr

namespace Export

variable {σ : Type} [Store σ]

/-- The last height to export: the one that is asked for if it lies between the first block and the
last, and else the last block. -/
def lastHeight (s : σ) (stop : UInt64) : Except BootstrapError UInt64 := do
  let count ← (Store.blockCount s).mapError BootstrapError.store
  if count = 0 then
    throw .emptyLedger
  let tip := count - 1
  return if 0 < stop ∧ stop < tip then stop else tip

/-- Fetches the block at a height with its transactions, as records. -/
def packageAt (s : σ) (height : UInt64) : Except BootstrapError BlockPackage := do
  let bytes ← (Store.blockAt s height).mapError BootstrapError.store
  let block ← readRecord BlockRecord bytes
  let transactions ← block.txHashes.mapM fun hash => do
    let bytes ← (Store.transaction s hash).mapError BootstrapError.store
    readRecord TxRecord bytes
  return { block, transactions }

/-- Adds the next blocks to a file, `blocks` of them from a height on. Gives the writer before the
first that fails, and the failure. -/
def writeBlocks (s : σ) : (blocks : Nat) → (height : UInt64) → BootstrapWriter →
    BootstrapWriter × Except (Halt BootstrapError) Unit
  | 0, _, w => (w, .ok ())
  | blocks + 1, height, w =>
    match packageAt s height with
    | .error e => (w, .error (.failure e))
    | .ok p =>
      match w.append p with
      | .error e => (w, .error e)
      | .ok w => writeBlocks s blocks (height + 1) w

/-- Writes the blocks up to a height to a file, beginning where the file ends. It has to end at the
wanted start or above. Gives the bytes of the file after it. -/
def run (s : σ) (w : BootstrapWriter) (start last : UInt64) :
    Bytes × Except (Halt BootstrapError) ExportSummary :=
  let first := w.nextHeight
  if first < start then (w.file, .error (.failure (.gap start)))
  else
    match writeBlocks s (last.toNat + 1 - first.toNat) first w with
    | (w, .error e) => (w.file, .error e)
    | (w, .ok ()) => (w.flush.file, .ok { first, last, written := w.written })

end Export

namespace Import

variable {σ : Type} [Store σ]

/-- The block of a package. -/
def blockOf (p : BlockPackage) : Except BootstrapError Block :=
  (Block.ofRecord p.block).mapError BootstrapError.codec

/-- The transactions of a package. -/
def transactionsOf (p : BlockPackage) : Except BootstrapError (List Transaction) :=
  (p.transactions.mapM Transaction.ofRecord).mapError BootstrapError.codec

/-- Appends a package to a ledger of the given height, or skips it. -/
def appendPackage (l : Ledger σ) (height : UInt64) (p : BlockPackage) :
    Except (Halt BootstrapError) (Option (Ledger σ)) := do
  let block ← blockOf p
  if block.height < height then
    return none
  let ts ← transactionsOf p
  let (_, l) ← Halt.within BootstrapError.ledger (l.append block ts)
  return some l

/-- Appends packages in order to a ledger of the given height. Gives the ledger after the last that
was appended. -/
def appendPackages (l : Ledger σ) (height : UInt64) (summary : ImportSummary) :
    List BlockPackage → Ledger σ × Except (Halt BootstrapError) ImportSummary
  | [] => (l, .ok summary)
  | p :: rest =>
    match appendPackage l height p with
    | .error e => (l, .error e)
    | .ok none => appendPackages l height { summary with skipped := summary.skipped + 1 } rest
    | .ok (some l) =>
      appendPackages l (height + 1) { summary with imported := summary.imported + 1 } rest

/-- Appends the packages of a file to a ledger. The packages before a fault of the file are
appended. -/
def run (l : Ledger σ) (bs : Bytes) : Ledger σ × Except (Halt BootstrapError) ImportSummary :=
  match BootstrapFile.read bs with
  | .error e => (l, .error (.failure e))
  | .ok file =>
    match l.height with
    | .error e => (l, .error (.failure (.ledger e)))
    | .ok height =>
      let contents := file.packages
      match appendPackages l height {} contents.items, contents.failure with
      | (l, .ok _), some e => (l, .error (.failure e))
      | result, _ => result

end Import

end RingDepth
