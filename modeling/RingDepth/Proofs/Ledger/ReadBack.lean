import Mathlib.Data.Set.Function
import RingDepth.Ledger.Reader
import RingDepth.Proofs.Codec.Record
import RingDepth.Proofs.Ledger.Run

/-!
# Reading a chain back

Blocks and transactions that were put together, and not read from bytes, are named by the digests of
their stored forms. If the digests of different blocks of a chain differ, then decoded lookups give back
exactly what the chain took: the block of each height as it was, and each confirmed transaction.

Transactions need no assumption on digests, because none is taken whose hash is there already.
-/

namespace RingDepth

/-- Transactions that were put together, and not read from bytes. -/
inductive Transaction.Built : Transaction → Prop
  | new (unlockTime : UInt64) (inputs : List Input) (outputs : List Output) (extra : Bytes) :
    Built (.new unlockTime inputs outputs extra)
  | reward {height : UInt64} {outputs : List Output} {t : Transaction}
    (h : Transaction.reward? height outputs = some t) : Built t
  | ofRecord {r : TxRecord} {t : Transaction} (h : Transaction.ofRecord r = .ok t) : Built t

/-- Blocks that were put together, and not read from bytes. -/
inductive Block.Built : Block → Prop
  | new {prevHash : BlockHash} {timestamp : UInt64} {rewardTx : Transaction} {txHashes : List TxHash}
    {b : Block} (h : Block.new prevHash timestamp rewardTx txHashes = .ok b) : Built b
  | ofRecord {r : BlockRecord} {b : Block} (h : Block.ofRecord r = .ok b) : Built b

/-- A block and its transactions were put together, and their lists have lengths that can be written, as
all lists in memory have. -/
structure Extension.Built (e : Extension) : Prop where
  block : e.block.Built
  transactions : ∀ t ∈ e.transactions, t.Built
  blockFits : Codec.Fits e.block.toRecord
  transactionsFit : ∀ t ∈ e.transactions, Codec.Fits t.toRecord

/-- The digests of the stored forms of different blocks of a chain differ. -/
def DigestsDiffer (chain : List Extension) : Prop :=
  Set.InjOn Blake2b.digest {bytes | ∃ e ∈ chain, e.block.encode = bytes}

/-- The digests differ if none stands twice in the list of all of them. -/
theorem DigestsDiffer.of_nodup {chain : List Extension}
    (h : (chain.map fun e => Blake2b.digest e.block.encode).Nodup) : DigestsDiffer chain := by
  intro first hfirst second hsecond hsame
  obtain ⟨e, he, rfl⟩ := hfirst
  obtain ⟨other, hother, rfl⟩ := hsecond
  rw [List.inj_on_of_nodup_map h he hother hsame]

/-- A transaction that was put together is named by its stored form. -/
theorem Transaction.Built.namedByEncoding {t : Transaction} (h : t.Built) : t.NamedByEncoding := by
  cases h with
  | new unlockTime inputs outputs extra => exact namedByEncoding_new unlockTime inputs outputs extra
  | reward h =>
    obtain ⟨unlockTime, -, rfl⟩ := Option.map_eq_some_iff.mp h
    exact namedByEncoding_new unlockTime _ _ _
  | ofRecord h => exact (ofRecord_eq_ok_iff.mp h).1

/-- A block that was put together is named by its stored form, and its reward fits it. -/
theorem Block.Built.namedByEncoding {b : Block} (h : b.Built) :
    b.NamedByEncoding ∧ b.RewardFits := by
  cases h with
  | new h =>
    obtain ⟨hname, -, hreward⟩ := ofRecord_eq_ok_iff.mp h
    exact ⟨hname, hreward⟩
  | ofRecord h =>
    obtain ⟨hname, -, hreward⟩ := ofRecord_eq_ok_iff.mp h
    exact ⟨hname, hreward⟩

namespace Extension.Built

variable {e : Extension}

/-- The stored form of a block that was put together reads as the block. -/
theorem decode_block (h : e.Built) : Block.decode e.block.encode = .ok e.block :=
  Block.decode_encode h.blockFits h.block.namedByEncoding.1 h.block.namedByEncoding.2

/-- The stored form of each transaction that the block confirms reads as this transaction. -/
theorem decode_confirmed (h : e.Built) {t : Transaction} (ht : t ∈ e.confirmed) :
    Transaction.decode t.encode = .ok t := by
  obtain rfl | hlisted := List.mem_cons.mp ht
  · have hfits : Codec.Fits e.block.rewardTx.toRecord := h.blockFits.2.2.2.2.2.1
    exact Transaction.decode_encode hfits h.block.namedByEncoding.2.named
  · exact Transaction.decode_encode (h.transactionsFit t hlisted)
      (h.transactions t hlisted).namedByEncoding

end Extension.Built

/-- There is a last block with the hash of a block of a chain. -/
theorem exists_lastNamed? {chain : List Extension} {e : Extension} (he : e ∈ chain) :
    ∃ last ∈ chain, lastNamed? chain e.block.hash = some last ∧ last.block.hash = e.block.hash := by
  cases hlast : lastNamed? chain e.block.hash with
  | none => simpa using List.find?_eq_none.mp hlast e (List.mem_reverse.mpr he)
  | some last =>
    exact ⟨last, List.mem_reverse.mp (List.mem_of_find?_eq_some hlast), rfl,
      by simpa using List.find?_some hlast⟩

/-- Blocks of a chain with one hash have one stored form, if they were put together and the digests of
different blocks differ. -/
theorem DigestsDiffer.encode_eq {chain : List Extension} (h : DigestsDiffer chain)
    (hbuilt : ∀ e ∈ chain, e.Built) {e last : Extension} (he : e ∈ chain) (hlast : last ∈ chain)
    (hhash : last.block.hash = e.block.hash) : last.block.encode = e.block.encode := by
  refine h ⟨last, hlast, rfl⟩ ⟨e, he, rfl⟩ ?_
  have hdigest : Identifier.ofContent last.block.encode = Identifier.ofContent e.block.encode :=
    calc Identifier.ofContent last.block.encode
        = last.block.hash := ((hbuilt last hlast).block.namedByEncoding.1).symm
      _ = e.block.hash := hhash
      _ = Identifier.ofContent e.block.encode := (hbuilt e he).block.namedByEncoding.1
  exact congrArg Identifier.bytes hdigest

namespace History.Faithful

variable {σ : Type} [Store σ] [Store.Lawful σ] {h : History σ}

/-- The hash at a height is that of the block of the chain at this position. -/
theorem blockHash (hf : h.Faithful) (height : UInt64) :
    Store.blockHash h.ledger.store height =
      Store.answer (.height height) (h.chain[height.toNat]?.map fun e => e.block.hash) := by
  rw [hf.answers.blockHash, Holdings.hashes_ofChain, List.getElem?_map]

/-- What is stored under the hash of a block is its stored form. -/
theorem block (hf : h.Faithful) (hbuilt : ∀ e ∈ h.chain, e.Built) (hdigests : DigestsDiffer h.chain)
    {e : Extension} (he : e ∈ h.chain) :
    Store.block h.ledger.store e.block.hash = .ok e.block.encode := by
  obtain ⟨last, hmem, hlast, hhash⟩ := exists_lastNamed? he
  rw [hf.answers.block, Holdings.blocks_ofChain, hlast, Option.map_some,
    hdigests.encode_eq hbuilt he hmem hhash]
  rfl

/-- The block at a height is the block of the chain at this position, if there is one. -/
theorem reader_block (hf : h.Faithful) (hbuilt : ∀ e ∈ h.chain, e.Built)
    (hdigests : DigestsDiffer h.chain) (height : UInt64) :
    (Reader.ofStore h.ledger.store).block height =
      .ok (h.chain[height.toNat]?.map Extension.block) := by
  change Reader.decoded Block.decode (Reader.found (Store.blockAt h.ledger.store height)) = _
  rw [Store.blockAt, hf.blockHash]
  cases he : h.chain[height.toNat]? with
  | none => rfl
  | some e =>
    have hmem : e ∈ h.chain := List.mem_of_getElem? he
    change Reader.decoded _ (Reader.found (Store.block h.ledger.store e.block.hash)) = _
    rw [hf.block hbuilt hdigests hmem]
    change ((Block.decode e.block.encode).mapError ReadError.codec).map some = _
    rw [(hbuilt e hmem).decode_block]
    rfl

/-- The transactions that are stored are those that the chain confirms, in their stored forms. -/
theorem transaction_eq_ok_iff (hf : h.Faithful) {hash : TxHash} {bytes : Bytes} :
    Store.transaction h.ledger.store hash = .ok bytes ↔
      ∃ t ∈ confirmedBy h.chain, t.hash = hash ∧ t.encode = bytes := by
  rw [hf.answers.transaction, Store.answer_eq_ok_iff,
    Holdings.transactions_ofChain_eq_some_iff hf.valid]

/-- A transaction that the chain confirms is found under its hash as it was. -/
theorem reader_transaction (hf : h.Faithful) (hbuilt : ∀ e ∈ h.chain, e.Built) {t : Transaction}
    (ht : t ∈ confirmedBy h.chain) :
    (Reader.ofStore h.ledger.store).transaction t.hash = .ok (some t) := by
  change Reader.decoded Transaction.decode
    (Reader.found (Store.transaction h.ledger.store t.hash)) = _
  rw [hf.transaction_eq_ok_iff.mpr ⟨t, ht, rfl, rfl⟩]
  obtain ⟨e, he, hconfirmed⟩ := List.mem_flatMap.mp ht
  change ((Transaction.decode t.encode).mapError ReadError.codec).map some = _
  rw [(hbuilt e he).decode_confirmed hconfirmed]
  rfl

end History.Faithful

end RingDepth
