import Mathlib.Data.List.Induction
import Mathlib.Data.List.Nodup
import RingDepth.Proofs.Ledger.Append
import RingDepth.Proofs.Store.Holdings

/-!
# Chains

The blocks that a ledger took, each with the transactions supplied for it, form a chain. What the store
of the ledger holds is what these blocks add to an empty one, and the conditions under which a further
block extends the ledger can be said of the chain alone.
-/

namespace RingDepth

/-- A block and the transactions that are supplied for its list. -/
structure Extension where
  block : Block
  transactions : List Transaction
deriving DecidableEq

namespace Extension

/-- The transactions that the block confirms, its reward first. -/
def confirmed (e : Extension) : List Transaction := e.block.rewardTx :: e.transactions

/-- What the block adds to a store. -/
def toWrite (e : Extension) : BlockWrite := e.block.toWrite e.transactions

end Extension

/-- The transactions that a chain confirms, in the order in which it took them. -/
def confirmedBy (chain : List Extension) : List Transaction := chain.flatMap Extension.confirmed

/-- The hash of the last block of a chain, or zero if there is none. -/
def lastHash (chain : List Extension) : BlockHash :=
  (chain.getLast?.map fun e => e.block.hash).getD .zero

/-- The last block of a chain that has some hash. -/
def lastNamed? (chain : List Extension) (hash : BlockHash) : Option Extension :=
  chain.reverse.find? fun e => e.block.hash = hash

/-- The conditions under which a block follows a chain. Its height is the number of blocks, the last block is
its parent, and it meets the checkpoint at its height. Its transactions are the listed ones in their order,
and spend something and mint nothing. It confirms nothing twice, and nothing that the chain confirms. -/
structure Extension.Follows (checkpoints : Checkpoints) (chain : List Extension) (e : Extension) :
    Prop where
  height : e.block.height.toNat = chain.length
  parent : e.block.prevHash = lastHash chain
  checkpoint : ∀ pinned, checkpoints.get? e.block.height = some pinned → e.block.hash = pinned
  listed : e.transactions.map Transaction.hash = e.block.txHashes
  spends : ∀ t ∈ e.transactions, t.inputs ≠ [] ∧ ∀ input ∈ t.inputs, input.isTerminal = false
  fresh : ∀ t ∈ e.confirmed, t.hash ∉ (confirmedBy chain).map Transaction.hash
  distinct : (e.confirmed.map Transaction.hash).Nodup

/-- A block that follows a chain under some registry does so under the one that pins nothing. -/
theorem Extension.Follows.unpinned {checkpoints : Checkpoints} {chain : List Extension} {e : Extension}
    (h : e.Follows checkpoints chain) : e.Follows .empty chain :=
  { h with checkpoint := fun _ hpinned => absurd hpinned (by simp [Checkpoints.get?, Checkpoints.empty]) }

/-- Chains that grew block by block, each one following those before it. -/
inductive ValidChain (checkpoints : Checkpoints) : List Extension → Prop
  | nil : ValidChain checkpoints []
  | snoc {chain : List Extension} {e : Extension} (valid : ValidChain checkpoints chain)
      (follows : e.Follows checkpoints chain) : ValidChain checkpoints (chain ++ [e])

namespace ValidChain

variable {checkpoints : Checkpoints} {chain : List Extension}

/-- Each block of a valid chain follows those before it. -/
theorem follows (h : ValidChain checkpoints chain) {i : ℕ} {e : Extension}
    (he : chain[i]? = some e) : e.Follows checkpoints (chain.take i) := by
  induction h with
  | nil => simp at he
  | @snoc chain last valid follows ih =>
    rw [Holdings.getElem?_concat] at he
    split_ifs at he with hi
    · cases he
      rw [hi, List.take_left]
      exact follows
    · obtain ⟨hlt, -⟩ := List.getElem?_eq_some_iff.mp he
      rw [List.take_append_of_le_length (Nat.le_of_lt hlt)]
      exact ih he

/-- The block at a position has the position as height. -/
theorem toNat_height (h : ValidChain checkpoints chain) {i : ℕ} {e : Extension}
    (he : chain[i]? = some e) : e.block.height.toNat = i := by
  obtain ⟨hlt, -⟩ := List.getElem?_eq_some_iff.mp he
  rw [(h.follows he).height, List.length_take, Nat.min_eq_left (Nat.le_of_lt hlt)]

/-- A chain that is valid under some registry is valid under the one that pins nothing. -/
theorem unpinned (h : ValidChain checkpoints chain) : ValidChain .empty chain := by
  induction h with
  | nil => exact .nil
  | snoc _ follows ih => exact ih.snoc follows.unpinned

/-- No transaction is confirmed twice. -/
theorem nodup (h : ValidChain checkpoints chain) :
    ((confirmedBy chain).map Transaction.hash).Nodup := by
  induction h with
  | nil => exact List.nodup_nil
  | @snoc chain last valid follows ih =>
    rw [confirmedBy, List.flatMap_append, List.map_append, List.flatMap_singleton]
    refine List.nodup_append.mpr ⟨ih, follows.distinct, ?_⟩
    intro hash hold other hnew hsame
    obtain ⟨t, ht, rfl⟩ := List.mem_map.mp hnew
    exact follows.fresh t ht (hsame ▸ hold)

end ValidChain

namespace Holdings

/-- What the blocks of a chain add to an empty store. -/
def ofChain (chain : List Extension) : Holdings :=
  chain.foldl (fun c e => c.write e.toWrite) empty

/-- One more block adds to what those before it added. -/
theorem ofChain_concat (chain : List Extension) (e : Extension) :
    ofChain (chain ++ [e]) = (ofChain chain).write e.toWrite := by
  rw [ofChain, List.foldl_append]
  rfl

/-- The hashes of a chain stand in its order. -/
theorem hashes_ofChain (chain : List Extension) :
    (ofChain chain).hashes = chain.map fun e => e.block.hash := by
  induction chain using List.reverseRecOn with
  | nil => rfl
  | append_singleton chain e ih =>
    rw [ofChain_concat, List.map_append, ← ih]
    rfl

/-- A block is found in the form of the last one with its hash. -/
theorem blocks_ofChain (chain : List Extension) (hash : BlockHash) :
    (ofChain chain).blocks hash = (lastNamed? chain hash).map fun e => e.block.encode := by
  induction chain using List.reverseRecOn with
  | nil => rfl
  | append_singleton chain e ih =>
    rw [ofChain_concat, lastNamed?, List.reverse_append, List.reverse_singleton,
      List.singleton_append, List.find?_cons]
    change Function.update (ofChain chain).blocks e.block.hash (some e.block.encode) hash = _
    by_cases h : e.block.hash = hash
    · simp [h]
    · rw [Function.update_of_ne (Ne.symm h), ih, lastNamed?]
      simp [h]

/-- Transactions are put one after the other, through all blocks. -/
theorem transactions_ofChain (chain : List Extension) :
    (ofChain chain).transactions =
      ((confirmedBy chain).map fun t => (t.hash, t.encode)).foldl putTransaction fun _ => none := by
  induction chain using List.reverseRecOn with
  | nil => rfl
  | append_singleton chain e ih =>
    rw [ofChain_concat, confirmedBy, List.flatMap_append, List.map_append, List.foldl_append,
      List.flatMap_singleton, ← confirmedBy, ← ih]
    rfl

/-- Where entries have different hashes, exactly they are found. -/
theorem foldl_putTransaction_eq_some_iff {entries : List (TxHash × Bytes)}
    (hnodup : (entries.map Prod.fst).Nodup) {hash : TxHash} {bytes : Bytes} :
    entries.foldl putTransaction (fun _ => none) hash = some bytes ↔ (hash, bytes) ∈ entries := by
  induction entries using List.reverseRecOn with
  | nil => simp
  | append_singleton entries entry ih =>
    rw [List.map_append, List.nodup_append] at hnodup
    obtain ⟨hbefore, -, hdisjoint⟩ := hnodup
    rw [List.foldl_append, List.foldl_cons, List.foldl_nil, putTransaction, List.mem_append,
      List.mem_singleton]
    by_cases h : hash = entry.1
    · subst h
      have hnew : (entry.1, bytes) ∉ entries := fun hmem =>
        hdisjoint entry.1 (List.mem_map.mpr ⟨_, hmem, rfl⟩) entry.1 (by simp) rfl
      simp [hnew, Prod.ext_iff, eq_comm]
    · rw [Function.update_of_ne h, ih hbefore]
      simp [h, Prod.ext_iff]

/-- A valid chain leaves exactly the transactions that it confirms, each under its hash. -/
theorem transactions_ofChain_eq_some_iff {checkpoints : Checkpoints} {chain : List Extension}
    (h : ValidChain checkpoints chain) {hash : TxHash} {bytes : Bytes} :
    (ofChain chain).transactions hash = some bytes ↔
      ∃ t ∈ confirmedBy chain, t.hash = hash ∧ t.encode = bytes := by
  have hnodup : (((confirmedBy chain).map fun t => (t.hash, t.encode)).map Prod.fst).Nodup := by
    rw [List.map_map]
    exact h.nodup
  rw [transactions_ofChain, foldl_putTransaction_eq_some_iff hnodup]
  simp

/-- A valid chain leaves nothing under the hashes of transactions that it does not confirm. -/
theorem transactions_ofChain_eq_none_iff {checkpoints : Checkpoints} {chain : List Extension}
    (h : ValidChain checkpoints chain) {hash : TxHash} :
    (ofChain chain).transactions hash = none ↔ hash ∉ (confirmedBy chain).map Transaction.hash := by
  rw [Option.eq_none_iff_forall_ne_some]
  constructor
  · intro hnone hmem
    obtain ⟨t, ht, rfl⟩ := List.mem_map.mp hmem
    exact hnone t.encode ((transactions_ofChain_eq_some_iff h).mpr ⟨t, ht, rfl, rfl⟩)
  · intro hnot bytes hsome
    obtain ⟨t, ht, rfl, -⟩ := (transactions_ofChain_eq_some_iff h).mp hsome
    exact hnot (List.mem_map_of_mem ht)

end Holdings

/-- A block that follows a chain has the height behind those of its blocks. -/
theorem Extension.Follows.toNat_height {checkpoints : Checkpoints} {chain : List Extension} {e : Extension}
    (h : e.Follows checkpoints chain) :
    e.block.height.toNat = (Holdings.ofChain chain).hashes.length := by
  rw [Holdings.hashes_ofChain, List.length_map, h.height]

/-- A store that writes a block which follows a chain holds what the longer chain adds. -/
theorem Store.represents_concat {σ : Type} [Store σ] [Store.Lawful σ] {s s' : σ}
    {checkpoints : Checkpoints} {chain : List Extension} {e : Extension}
    (hrepresents : Represents s (.ofChain chain)) (hfollows : e.Follows checkpoints chain)
    (hwrite : Store.writeBlock s e.toWrite = .ok s') : Represents s' (.ofChain (chain ++ [e])) := by
  rw [Holdings.ofChain_concat]
  exact represents_writeBlock hrepresents hfollows.toNat_height hwrite

namespace Ledger

variable {σ : Type} [Store σ] {l : Ledger σ} {chain : List Extension}

/-- The height of a block is the count of a store exactly when it is the number of blocks. -/
theorem blockCount_eq_ok_iff (h : Store.Answers l.store (.ofChain chain)) {height : UInt64} :
    Store.blockCount l.store = .ok height ↔ height.toNat = chain.length := by
  obtain ⟨n, hn, hlength⟩ := h.blockCount
  rw [Holdings.hashes_ofChain, List.length_map] at hlength
  rw [hn, Except.ok.injEq, ← UInt64.toNat_inj, hlength, eq_comm]

/-- The height below a height. -/
theorem toNat_below {height : UInt64} (h : height ≠ 0) : (height - 1).toNat = height.toNat - 1 := by
  have hpos : (1 : UInt64) ≤ height := by
    rw [UInt64.le_iff_toNat_le]
    exact Nat.one_le_iff_ne_zero.mpr fun hzero => h (UInt64.toNat_inj.mp hzero)
  rw [UInt64.toNat_sub_of_le _ _ hpos]
  rfl

/-- The height above a height. -/
theorem toNat_above {height : UInt64} (h : height.toNat + 1 < UInt64.size) :
    (height + 1).toNat = height.toNat + 1 := by
  rw [UInt64.toNat_add]
  exact Nat.mod_eq_of_lt h

/-- The block below the next height is the last block of the chain. -/
theorem parent_iff (h : Store.Answers l.store (.ofChain chain)) {height : UInt64}
    (hheight : height.toNat = chain.length) {parent : BlockHash} :
    (if height = 0 then parent = .zero else Store.blockHash l.store (height - 1) = .ok parent) ↔
      parent = lastHash chain := by
  by_cases hzero : height = 0
  · subst hzero
    obtain rfl : chain = [] := List.length_eq_zero_iff.mp hheight.symm
    simp [lastHash]
  · have hlast : (Holdings.ofChain chain).hashes[(height - 1).toNat]? =
        chain.getLast?.map fun e => e.block.hash := by
      rw [Holdings.hashes_ofChain, toNat_below hzero, hheight, List.getElem?_map,
        List.getLast?_eq_getElem?]
    rw [if_neg hzero, h.blockHash, Store.answer_eq_ok_iff, hlast, lastHash]
    have hsome : chain.getLast? ≠ none := by
      rw [Ne, List.getLast?_eq_none_iff]
      intro hnil
      subst hnil
      exact hzero (UInt64.toNat_inj.mp hheight)
    obtain ⟨last, hlast⟩ := Option.ne_none_iff_exists'.mp hsome
    simp [hlast, eq_comm]

/-- A transaction is new to a store exactly when the chain does not confirm it. -/
theorem hasTransaction_eq_false_iff (valid : ValidChain l.checkpoints chain)
    (h : Store.Answers l.store (.ofChain chain)) {hash : TxHash} :
    Store.hasTransaction l.store hash = .ok false ↔
      hash ∉ (confirmedBy chain).map Transaction.hash := by
  rw [h.hasTransaction, Except.ok.injEq, Option.isSome_eq_false_iff, Option.isNone_iff_eq_none,
    Holdings.transactions_ofChain_eq_none_iff valid]

/-- A block extends a ledger exactly when it follows the chain that the ledger took. -/
theorem extends_iff_follows (valid : ValidChain l.checkpoints chain)
    (h : Store.Answers l.store (.ofChain chain)) (e : Extension) :
    l.Extends e.block e.transactions ↔ e.Follows l.checkpoints chain := by
  refine ⟨fun he => ?_, fun he => ?_⟩
  · have hheight := (blockCount_eq_ok_iff h).mp he.height
    exact ⟨hheight, (parent_iff h hheight).mp he.parent, he.checkpoint, he.listed, he.spends,
      fun t ht => (hasTransaction_eq_false_iff valid h).mp (he.fresh t ht), he.distinct⟩
  · exact ⟨(blockCount_eq_ok_iff h).mpr he.height, (parent_iff h he.height).mpr he.parent,
      he.checkpoint, he.listed, he.spends,
      fun t ht => (hasTransaction_eq_false_iff valid h).mpr (he.fresh t ht), he.distinct⟩

end Ledger

end RingDepth
