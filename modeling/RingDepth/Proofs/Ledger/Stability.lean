import RingDepth.Proofs.Ledger.Growth
import RingDepth.Proofs.Ledger.Owner
import RingDepth.Proofs.Trace.Stability

/-!
# Traces in a ledger that grows

An append overwrites nothing and renumbers nothing, if the hashes of different blocks differ. So what the
lookups of a ledger find is found after every further append, and a trace that has found its depth, or that
the search ended, comes to the same end then.

A trace that failed for something that was not found may succeed later: a ring may name an output that is
yet to be created.
-/

namespace RingDepth

/-- Another store finds again what a store finds: blocks, their hashes at their heights, transactions and
outputs. -/
structure Store.KeptBy {σ τ : Type} [Store σ] [Store τ] (s : σ) (s' : τ) : Prop where
  block : ∀ {hash bytes}, Store.block s hash = .ok bytes → Store.block s' hash = .ok bytes
  blockHash : ∀ {height hash}, Store.blockHash s height = .ok hash →
    Store.blockHash s' height = .ok hash
  transaction : ∀ {hash bytes}, Store.transaction s hash = .ok bytes →
    Store.transaction s' hash = .ok bytes
  output : ∀ {id location}, Store.output s id = .ok location → Store.output s' id = .ok location

namespace Reader

/-- A lookup that found something had an answer. -/
theorem found_eq_ok_some_iff {α : Type} {x : Except StoreError α} {a : α} :
    found x = .ok (some a) ↔ x = .ok a := by
  unfold found
  split <;> simp

/-- What was decoded are bytes that were found. -/
theorem decoded_found_eq_ok_some_iff {α : Type} {decode : Bytes → Except CodecError α}
    {x : Except StoreError Bytes} {a : α} :
    decoded decode (found x) = .ok (some a) ↔ ∃ bytes, x = .ok bytes ∧ decode bytes = .ok a := by
  constructor
  · intro h
    unfold decoded at h
    split at h
    · rename_i bytes hbytes
      obtain ⟨b, hb, hsome⟩ := map_eq_ok_iff.mp h
      obtain rfl := Option.some.inj hsome
      exact ⟨bytes, found_eq_ok_some_iff.mp hbytes, mapError_eq_ok_iff.mp hb⟩
    · cases h
    · cases h
  · intro h
    obtain ⟨bytes, rfl, hdecode⟩ := h
    change ((decode bytes).mapError ReadError.codec).map some = _
    rw [hdecode]
    rfl

end Reader

namespace Store.KeptBy

variable {σ τ : Type} [Store σ] [Store τ] {s : σ} {s' : τ}

/-- What is found at a height is found there again. -/
theorem blockAt (h : KeptBy s s') {height : UInt64} {bytes : Bytes}
    (hblock : Store.blockAt s height = .ok bytes) : Store.blockAt s' height = .ok bytes := by
  obtain ⟨hash, hhash, hbytes⟩ := bind_eq_ok_iff.mp hblock
  exact bind_eq_ok_iff.mpr ⟨hash, h.blockHash hhash, h.block hbytes⟩

/-- What is read is read again. -/
theorem reader (h : KeptBy s s') : Reader.KeptBy (Reader.ofStore s) (Reader.ofStore s') where
  transaction {hash t} ht := by
    obtain ⟨bytes, hbytes, hdecode⟩ := Reader.decoded_found_eq_ok_some_iff.mp ht
    exact Reader.decoded_found_eq_ok_some_iff.mpr ⟨bytes, h.transaction hbytes, hdecode⟩
  block {height b} hb := by
    obtain ⟨bytes, hbytes, hdecode⟩ := Reader.decoded_found_eq_ok_some_iff.mp hb
    exact Reader.decoded_found_eq_ok_some_iff.mpr ⟨bytes, h.blockAt hbytes, hdecode⟩
  output {id location} hlocation :=
    Reader.found_eq_ok_some_iff.mpr (h.output (Reader.found_eq_ok_some_iff.mp hlocation))

end Store.KeptBy

/-- More blocks create their outputs behind those of a chain. -/
theorem createdBy_append (chain later : List Extension) (amount : UInt64) :
    createdBy (chain ++ later) amount = createdBy chain amount ++ createdBy later amount := by
  rw [createdBy, createdBy, createdBy, List.flatMap_append]

/-- The hashes of different blocks differ, if they were put together and their digests differ. -/
theorem DigestsDiffer.hashesDiffer {chain : List Extension} (h : DigestsDiffer chain)
    (hbuilt : ∀ e ∈ chain, e.Built) : HashesDiffer chain := by
  intro e he other hother hhash
  have hencode := h.encode_eq hbuilt hother he hhash
  have hdecode := (hbuilt e he).decode_block
  rw [hencode, (hbuilt other hother).decode_block] at hdecode
  exact (Except.ok.inj hdecode).symm

namespace History.Faithful

variable {σ : Type} [Store σ] [Store.Lawful σ] {h h' : History σ}

/-- What a ledger finds is found in a ledger of the same blocks and further ones. -/
theorem keptBy (hf : h.Faithful) (hf' : h'.Faithful) {later : List Extension}
    (hlater : h'.chain = h.chain ++ later) (hdiffer : HashesDiffer h'.chain) :
    Store.KeptBy h.ledger.store h'.ledger.store where
  block := by
    intro hash bytes hblock
    rw [hf.answers.block, Holdings.blocks_ofChain, Store.answer_eq_ok_iff] at hblock
    obtain ⟨e, he, rfl⟩ := Option.map_eq_some_iff.mp hblock
    have hmem : e ∈ h'.chain := by
      rw [hlater]
      exact List.mem_append_left _ (List.mem_reverse.mp (List.mem_of_find?_eq_some he))
    obtain rfl : e.block.hash = hash := by simpa using List.find?_some he
    -- A later block with this hash is the same block.
    obtain ⟨last, hlastMem, hlast, hhash⟩ := exists_lastNamed? hmem
    rw [hf'.answers.block, Holdings.blocks_ofChain, hlast, Option.map_some,
      hdiffer last hlastMem e hmem hhash]
    rfl
  blockHash := by
    intro height hash hhash
    rw [hf.blockHash, Store.answer_eq_ok_iff] at hhash
    obtain ⟨e, he, rfl⟩ := Option.map_eq_some_iff.mp hhash
    obtain ⟨hlt, -⟩ := List.getElem?_eq_some_iff.mp he
    rw [hf'.blockHash, hlater, List.getElem?_append_left hlt, he]
    rfl
  transaction := by
    intro hash bytes htransaction
    obtain ⟨t, ht, hhash, hbytes⟩ := hf.transaction_eq_ok_iff.mp htransaction
    refine hf'.transaction_eq_ok_iff.mpr ⟨t, ?_, hhash, hbytes⟩
    rw [hlater, confirmedBy, List.flatMap_append]
    exact List.mem_append_left _ ht
  output := by
    intro id location hlocation
    rw [hf.answers.output, Holdings.output?, Holdings.outputs_ofChain, Store.answer_eq_ok_iff] at hlocation
    obtain ⟨hlt, -⟩ := List.getElem?_eq_some_iff.mp hlocation
    rw [hf'.answers.output, Holdings.output?, Holdings.outputs_ofChain, Store.answer_eq_ok_iff, hlater,
      createdBy_append, List.getElem?_append_left hlt, hlocation]

end History.Faithful

/-- What the ledger of a run finds is found after a longer run, if the hashes of different blocks differ. -/
theorem Ledger.keptBy_run {σ : Type} [Store σ] [Store.Lawful σ] [Store.Refusing σ] [Store.LawfulRefusing σ]
    {l : Ledger σ} (hempty : Store.Represents l.store .empty) {calls more : List LedgerCall}
    (hdiffer : HashesDiffer (l.run (calls ++ more)).chain) :
    Store.KeptBy (l.run calls).ledger.store (l.run (calls ++ more)).ledger.store := by
  obtain ⟨later, hlater⟩ := l.chain_run_append calls more
  exact (l.faithful_run hempty calls).keptBy (l.faithful_run hempty (calls ++ more)) hlater hdiffer

/-- From every empty ledger: a trace after some calls that found a depth or was ended by the search has the
same outcome or the same failure after every further calls, if the hashes of different blocks that the
ledger took differ. -/
theorem settled_run (checkpoints : Checkpoints) (calls more : List LedgerCall) :
    InEveryEmptyLedger checkpoints fun l =>
      HashesDiffer (l.run (calls ++ more)).chain →
        ∀ (c : TraceConfig) (start : TxHash),
          Trace.Settled (trace (Reader.ofStore (l.run calls).ledger.store) c start) →
          trace (Reader.ofStore (l.run (calls ++ more)).ledger.store) c start =
            trace (Reader.ofStore (l.run calls).ledger.store) c start := by
  apply inEveryEmptyLedger_of_represents
  intro σ _ _ _ _ l hempty _ hdiffer c start hsettled
  exact (Ledger.keptBy_run hempty hdiffer).reader.trace hsettled

/-- A third block, which confirms its reward only. -/
def third : Extension := ⟨blockOf 2 upper.block.hash [], []⟩

/-- The history of a store in memory that takes the first two blocks. -/
def twoBlocksHistory : History Memory := Ledger.run { store := {} } [.append lower, .append upper]

/-- The history that goes on from there: the first block is refused, and the third one is taken. -/
def threeBlocksHistory : History Memory :=
  Ledger.run { store := {} } ([.append lower, .append upper] ++ [.append lower, .append third])

/-- The transaction of the second block keeps its depth and the work that finding it takes. -/
theorem settled_threeBlocks :
    threeBlocksHistory.chain = [lower, upper, third] ∧ HashesDiffer threeBlocksHistory.chain ∧
      ∃ outcome, outcome.depth = 1 ∧
        trace (Reader.ofStore twoBlocksHistory.ledger.store) {} spending.hash = .ok outcome ∧
        trace (Reader.ofStore threeBlocksHistory.ledger.store) {} spending.hash = .ok outcome := by
  have hchain : threeBlocksHistory.chain = [lower, upper, third] := by decide +kernel
  have hdiffer : HashesDiffer threeBlocksHistory.chain := by
    rw [hchain, HashesDiffer]
    decide +kernel
  have htrace : trace (Reader.ofStore twoBlocksHistory.ledger.store) {} spending.hash =
      .ok { start := spending.hash, depth := 1, work := ⟨2, 1, 1⟩ } := by decide +kernel
  have hrun := (settled_run {} [.append lower, .append upper] [.append lower, .append third]).memory ∅ false
  rw [← twoBlocksHistory, ← threeBlocksHistory] at hrun
  have hsame := hrun hdiffer {} spending.hash (htrace ▸ .found _)
  exact ⟨hchain, hdiffer, _, rfl, htrace, hsame.trans htrace⟩

end RingDepth
