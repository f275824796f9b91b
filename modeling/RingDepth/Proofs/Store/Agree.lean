import RingDepth.Bootstrap.InTree
import RingDepth.Proofs.Store.Holdings
import RingDepth.Spent.Scan
import RingDepth.Trace.Search

/-!
# Stores that agree

What is done over a store knows the store by its lookups only. So the checks of an append, a trace, the count
of spent outputs and an export come to the same over any two stores whose lookups find the same.
-/

namespace RingDepth

/-- The lookups of two stores find the same. -/
structure Store.Agree {σ τ : Type} [Store σ] [Store τ] (s : σ) (copy : τ) : Prop where
  blockCount : Store.blockCount copy = Store.blockCount s
  blockHash : ∀ height, Store.blockHash copy height = Store.blockHash s height
  block : ∀ hash, Store.block copy hash = Store.block s hash
  transaction : ∀ hash, Store.transaction copy hash = Store.transaction s hash
  hasTransaction : ∀ hash, Store.hasTransaction copy hash = Store.hasTransaction s hash
  outputCount : ∀ amount, Store.outputCount copy amount = Store.outputCount s amount
  output : ∀ id, Store.output copy id = Store.output s id

section

variable {σ τ : Type} [Store σ] [Store τ] {s : σ} {copy : τ}

/-- Counts that are found and are the same number are the same answer. -/
theorem eq_of_exists_toNat_eq {ε : Type} {x y : Except ε UInt64} {n : ℕ}
    (hx : ∃ a, x = .ok a ∧ a.toNat = n) (hy : ∃ b, y = .ok b ∧ b.toNat = n) : x = y := by
  obtain ⟨a, rfl, ha⟩ := hx
  obtain ⟨b, rfl, hb⟩ := hy
  rw [UInt64.toNat_inj.mp (ha.trans hb.symm)]

/-- Stores that answer from the same holdings agree. -/
theorem Store.Answers.agree {c : Holdings} (hs : Answers s c) (hcopy : Answers copy c) :
    Agree s copy where
  blockCount := eq_of_exists_toNat_eq hcopy.blockCount hs.blockCount
  blockHash height := (hcopy.blockHash height).trans (hs.blockHash height).symm
  block hash := (hcopy.block hash).trans (hs.block hash).symm
  transaction hash := (hcopy.transaction hash).trans (hs.transaction hash).symm
  hasTransaction hash := (hcopy.hasTransaction hash).trans (hs.hasTransaction hash).symm
  outputCount amount := eq_of_exists_toNat_eq (hcopy.outputCount amount) (hs.outputCount amount)
  output id := (hcopy.output id).trans (hs.output id).symm

namespace Store.Agree

/-- Stores that agree have the same bytes at every height. -/
theorem blockAt (h : Agree s copy) (height : UInt64) :
    Store.blockAt copy height = Store.blockAt s height := by
  rw [Store.blockAt, Store.blockAt, h.blockHash, funext h.block]

/-- Stores that agree are read in the same way. -/
theorem ofStore_eq (h : Agree s copy) : Reader.ofStore copy = Reader.ofStore s := by
  rw [Reader.ofStore, Reader.ofStore, funext h.transaction, funext h.blockAt, funext h.output,
    h.blockCount]

end Store.Agree

namespace Store.Agree

variable {checkpoints : Checkpoints}

/-- Two ledgers of such stores have the same height. -/
theorem height (h : Agree s copy) :
    Ledger.height { store := copy, checkpoints } = Ledger.height { store := s, checkpoints } := by
  rw [Ledger.height, Ledger.height, h.blockCount]

/-- They have the same last block. -/
theorem topHash (h : Agree s copy) :
    Ledger.topHash { store := copy, checkpoints } = Ledger.topHash { store := s, checkpoints } := by
  simp only [Ledger.topHash, h.height, h.blockHash]

/-- They know of the same transactions. -/
theorem contains (h : Agree s copy) (hash : TxHash) :
    Ledger.contains { store := copy, checkpoints } hash =
      Ledger.contains { store := s, checkpoints } hash := by
  rw [Ledger.contains, Ledger.contains, h.hasTransaction]

/-- They check the place of a block in the same way. -/
theorem checkPlace (h : Agree s copy) (b : Block) :
    Ledger.checkPlace { store := copy, checkpoints } b =
      Ledger.checkPlace { store := s, checkpoints } b := by
  simp only [Ledger.checkPlace, h.height, h.topHash]

/-- They check the listed transactions in the same way. -/
theorem checkAllListed (h : Agree s copy) (b : Block) (position : ℕ) (ts : List Transaction)
    (hashes : List TxHash) :
    Ledger.checkAllListed { store := copy, checkpoints } b position ts hashes =
      Ledger.checkAllListed { store := s, checkpoints } b position ts hashes := by
  induction ts generalizing position hashes with
  | nil => rfl
  | cons t ts ih =>
    cases hashes with
    | nil => rfl
    | cons listed rest => simp only [Ledger.checkAllListed, Ledger.checkListed, h.contains, ih]

/-- They check all transactions of a block in the same way. -/
theorem checkTransactions (h : Agree s copy) (b : Block) (ts : List Transaction) :
    Ledger.checkTransactions { store := copy, checkpoints } b ts =
      Ledger.checkTransactions { store := s, checkpoints } b ts := by
  simp only [Ledger.checkTransactions, h.contains, h.checkAllListed]

/-- The last height to export is the same. -/
theorem lastHeight (h : Agree s copy) (stop : UInt64) :
    Export.lastHeight copy stop = Export.lastHeight s stop := by
  rw [Export.lastHeight, Export.lastHeight, h.blockCount]

/-- So is the package at every height. -/
theorem packageAt (h : Agree s copy) (height : UInt64) :
    Export.packageAt copy height = Export.packageAt s height := by
  simp only [Export.packageAt, h.blockAt, h.transaction]

/-- So is what an export adds to a file. -/
theorem writeBlocks (h : Agree s copy) (blocks : ℕ) (height : UInt64) (w : BootstrapWriter) :
    Export.writeBlocks copy blocks height w = Export.writeBlocks s blocks height w := by
  induction blocks generalizing height w with
  | zero => rfl
  | succ blocks ih => simp only [Export.writeBlocks, h.packageAt, ih]

/-- An export leaves the same files and has the same end. -/
theorem toPath (h : Agree s copy) (t : FileTree) (path : String) (start stop : UInt64) :
    Export.toPath copy t path start stop = Export.toPath s t path start stop := by
  simp only [Export.toPath, Export.run, h.lastHeight, h.writeBlocks]

end Store.Agree

end

end RingDepth
