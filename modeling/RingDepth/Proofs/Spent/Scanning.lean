import Mathlib.Algebra.Order.BigOperators.Group.List
import RingDepth.Proofs.Codec.Size
import RingDepth.Proofs.Ledger.Confirmation
import RingDepth.Proofs.Spent.Tally
import RingDepth.Spent.Scan

/-!
# What a scan counts

A scan goes through the blocks of a ledger by height, and fetches the transactions that each of them lists. In a
ledger that began empty every lookup finds what the chain took there, so a scan goes through the transactions that the
chain confirms, and meets each of them once.

What it does with a transaction is adding up entries: each keyed input stands for one output, and each output that is
not hidden stands for none, so that its amount is listed. Amounts of zero make no entries.

A number of spent outputs that no counter holds would take as many inputs, and so at least as many bytes of stored
transactions. Stores are addressed with 64 bits, so a scan of a ledger that is there never halts.
-/

namespace RingDepth

/-- Whether an input spends an output of an amount. -/
def Input.spends (amount : UInt64) : Input → Bool
  | terminal _ => false
  | keyed spent _ _ => decide (spent = amount)

/-- The number of keyed inputs of an amount, over all transactions that a chain confirms. -/
def spendings (chain : List Extension) (amount : UInt64) : ℕ :=
  ((confirmedBy chain).flatMap Transaction.inputs).countP (Input.spends amount)

/-- The number of bytes that the stored forms of the transactions of a chain take. -/
def storedBytes (chain : List Extension) : ℕ := ((confirmedBy chain).map fun t => t.encode.length).sum

/-- A transaction has no more inputs than its stored form has bytes. -/
theorem Transaction.length_inputs_le (t : Transaction) : t.inputs.length ≤ t.encode.length := by
  have hinputs := Codec.length_le_flatMap_encode (t.inputs.map Input.toRecord)
  rw [List.length_map] at hinputs
  change _ ≤ ([t.version] ++ (Codec.encode t.unlockTime ++
    ((Bytes.littleEndian 8 (t.inputs.map Input.toRecord).length ++
      (t.inputs.map Input.toRecord).flatMap Codec.encode) ++ (Codec.encode t.outputs ++ Codec.encode t.extra)))).length
  simp only [List.length_append]
  omega

/-- A chain has no more keyed inputs of an amount than bytes are stored. -/
theorem spendings_le_storedBytes (chain : List Extension) (amount : UInt64) :
    spendings chain amount ≤ storedBytes chain := by
  rw [spendings, List.countP_flatMap, storedBytes]
  exact List.sum_le_sum fun t _ => List.countP_le_length.trans t.length_inputs_le

namespace SpentCounts

variable {ε : Type} {amount : UInt64}

/-- The entries that an input makes: one output of its amount is spent, unless the amount is zero. -/
def ofInput : Input → List (UInt64 × UInt64)
  | .terminal _ => []
  | .keyed amount _ _ => if amount = 0 then [] else [(amount, 1)]

/-- The entries that an output makes: its amount is listed, unless it is zero. -/
def ofOutput (output : Output) : List (UInt64 × UInt64) :=
  if output.amount = 0 then [] else [(output.amount, 0)]

/-- The entries that a transaction makes. -/
def ofTransaction (t : Transaction) : List (UInt64 × UInt64) :=
  t.inputs.flatMap ofInput ++ if hidesAmounts t then [] else t.outputs.flatMap ofOutput

/-- An amount that is mentioned gets the number that it has, or zero. -/
theorem insertIfNew_zero (counts : SpentCounts) (amount : UInt64) :
    counts.insertIfNew amount 0 = counts.insert amount (counts.getD amount 0) := by
  apply Std.ExtTreeMap.ext_getElem?
  intro other
  rw [Std.ExtTreeMap.getElem?_insertIfNew, Std.ExtTreeMap.getElem?_insert, Std.ExtTreeMap.getD_eq_getD_getElem?]
  obtain hother | rfl := ne_or_eq amount other
  · rw [if_neg (fun h => hother (Std.LawfulEqCmp.compare_eq_iff_eq.mp h.1)),
      if_neg (fun h => hother (Std.LawfulEqCmp.compare_eq_iff_eq.mp h))]
  · rw [if_pos Std.ReflCmp.compare_self]
    have hmem : amount ∈ counts ↔ counts[amount]?.isSome := Std.ExtTreeMap.mem_iff_isSome_getElem?
    cases hcount : counts[amount]? with
    | none =>
      rw [hcount] at hmem
      rw [if_pos ⟨Std.ReflCmp.compare_self, mt hmem.mp Bool.false_ne_true⟩]
      rfl
    | some count =>
      rw [hcount] at hmem
      rw [if_neg fun h => h.2 (hmem.mpr rfl)]
      rfl

/-- Nothing is added to an amount that is mentioned. -/
theorem add_zero (counts : SpentCounts) (amount : UInt64) :
    (counts.add amount 0 : Except (Halt ε) SpentCounts) = .ok (counts.insertIfNew amount 0) := by
  rw [add_eq_ok_iff]
  exact ⟨counts.getD amount 0, rfl, insertIfNew_zero counts amount⟩

/-- An input adds its entries. -/
theorem addInput_eq_addAll (counts : SpentCounts) (input : Input) :
    counts.addInput input = addAll counts (ofInput input) := by
  cases input with
  | terminal height => rfl
  | keyed amount keyOffsets keyImage =>
    rw [addInput, ofInput]
    split_ifs with hzero
    · rfl
    · exact (addAll_singleton _ _ _).symm

/-- An output adds its entries. -/
theorem mention_eq_addAll (counts : SpentCounts) (output : Output) :
    (pure (counts.mention output.amount) : Except (Halt ε) SpentCounts) = addAll counts (ofOutput output) := by
  rw [mention, ofOutput]
  split_ifs with hzero
  · rfl
  · rw [addAll_singleton, add_zero]
    rfl

/-- A transaction adds its entries. -/
theorem addTransaction_eq_addAll (counts : SpentCounts) (t : Transaction) :
    counts.addTransaction t = addAll counts (ofTransaction t) := by
  rw [addTransaction, foldlM_eq_addAll addInput_eq_addAll, ofTransaction, addAll_append]
  refine congrArg _ (funext fun sums => ?_)
  split_ifs
  · rfl
  · rw [← foldlM_eq_addAll mention_eq_addAll, List.foldlM_pure]

/-- An entry that an input makes is of its amount. -/
theorem mem_ofInput {input : Input} {count : UInt64} : (amount, count) ∈ ofInput input ↔
    amount ≠ 0 ∧ count = 1 ∧ ∃ keyOffsets keyImage, input = .keyed amount keyOffsets keyImage := by
  cases input with
  | terminal height => simp [ofInput]
  | keyed spent keyOffsets keyImage =>
    rw [ofInput]
    split_ifs with hzero
    · refine iff_of_false List.not_mem_nil ?_
      rintro ⟨hamount, -, _, _, hinput⟩
      exact hamount ((Input.keyed.inj hinput).1.symm.trans hzero)
    · simp only [List.mem_singleton, Prod.mk.injEq, Input.keyed.injEq]
      constructor
      · rintro ⟨rfl, rfl⟩
        exact ⟨hzero, rfl, keyOffsets, keyImage, rfl, rfl, rfl⟩
      · rintro ⟨-, rfl, _, _, rfl, -, -⟩
        exact ⟨rfl, rfl⟩

/-- So is one that an output makes. -/
theorem mem_ofOutput {output : Output} {count : UInt64} : (amount, count) ∈ ofOutput output ↔
    amount ≠ 0 ∧ count = 0 ∧ output.amount = amount := by
  rw [ofOutput]
  split_ifs with hzero
  · rw [hzero]
    exact iff_of_false List.not_mem_nil fun h => h.1 h.2.2.symm
  · rw [List.mem_singleton, Prod.mk.injEq]
    constructor
    · rintro ⟨rfl, rfl⟩
      exact ⟨hzero, rfl, rfl⟩
    · rintro ⟨-, rfl, rfl⟩
      exact ⟨rfl, rfl⟩

/-- An entry of an amount is made exactly by a keyed input of it, or by an output of it that is not hidden. -/
theorem exists_mem_ofTransaction {t : Transaction} : (∃ count, (amount, count) ∈ ofTransaction t) ↔
    amount ≠ 0 ∧ ((∃ keyOffsets keyImage, .keyed amount keyOffsets keyImage ∈ t.inputs) ∨
      ¬(t.isReward ∧ 2 ≤ t.version) ∧ ∃ output ∈ t.outputs, output.amount = amount) := by
  have hhides : hidesAmounts t = true ↔ t.isReward ∧ 2 ≤ t.version := by
    rw [hidesAmounts, Bool.and_eq_true, decide_eq_true_iff]
  have hinput : (∃ count, (amount, count) ∈ t.inputs.flatMap ofInput) ↔
      amount ≠ 0 ∧ ∃ keyOffsets keyImage, .keyed amount keyOffsets keyImage ∈ t.inputs := by
    simp [mem_ofInput, and_comm]
  have houtput : (∃ count, (amount, count) ∈ t.outputs.flatMap ofOutput) ↔
      amount ≠ 0 ∧ ∃ output ∈ t.outputs, output.amount = amount := by
    simp only [List.mem_flatMap, mem_ofOutput]
    constructor
    · rintro ⟨_, output, houtput, hamount, -, hsame⟩
      exact ⟨hamount, output, houtput, hsame⟩
    · rintro ⟨hamount, output, houtput, hsame⟩
      exact ⟨0, output, houtput, hamount, rfl, hsame⟩
  rw [ofTransaction, ← hhides]
  simp only [List.mem_append, exists_or, hinput]
  split_ifs with hhidden
  · simp [hhidden]
  · rw [houtput, ← and_or_left]
    simp [hhidden]

/-- An input tells of one output that is spent if it spends one of the amount. -/
theorem total_ofInput (input : Input) (hamount : amount ≠ 0) :
    total (ofInput input) amount = if input.spends amount then 1 else 0 := by
  cases input with
  | terminal height => rfl
  | keyed spent keyOffsets keyImage =>
    rw [ofInput, Input.spends]
    by_cases hsame : spent = amount
    · rw [if_neg (hsame ▸ hamount), total_singleton, if_pos hsame, if_pos (decide_eq_true hsame)]
      rfl
    · rw [if_neg (mt of_decide_eq_true hsame)]
      split_ifs
      · rfl
      · rw [total_singleton, if_neg hsame]

/-- An output tells of none. -/
theorem total_ofOutput (output : Output) (amount : UInt64) : total (ofOutput output) amount = 0 := by
  rw [ofOutput]
  split_ifs
  · rfl
  · rw [total_singleton]
    exact ite_self 0

/-- The entries of a transaction tell how many of its inputs spend an output of an amount other than zero. -/
theorem total_ofTransaction (t : Transaction) (hamount : amount ≠ 0) :
    total (ofTransaction t) amount = t.inputs.countP (Input.spends amount) := by
  have hinputs (inputs : List Input) : total (inputs.flatMap ofInput) amount = inputs.countP (Input.spends amount) := by
    induction inputs with
    | nil => rfl
    | cons input inputs ih =>
      rw [List.flatMap_cons, total_append, total_ofInput input hamount, ih, List.countP_cons, Nat.add_comm]
  have houtputs (outputs : List Output) : total (outputs.flatMap ofOutput) amount = 0 := by
    rw [total_flatMap]
    refine List.sum_eq_zero fun n hn => ?_
    obtain ⟨output, -, rfl⟩ := List.mem_map.mp hn
    exact total_ofOutput output amount
  rw [ofTransaction, total_append, hinputs]
  split_ifs
  · rfl
  · rw [houtputs, Nat.add_zero]

/-- Whether numbers of spent outputs are those of a chain. An amount other than zero is listed if a confirmed
transaction has a keyed input of it, or an output that is not hidden, as those of rewards of version 2 or
later are. Its number is that of the keyed inputs of the amount. -/
structure Counts (counts : SpentCounts) (chain : List Extension) : Prop where
  mem_iff : ∀ amount, amount ∈ counts ↔ amount ≠ 0 ∧
    ((∃ t ∈ confirmedBy chain, ∃ keyOffsets keyImage, .keyed amount keyOffsets keyImage ∈ t.inputs) ∨
      ∃ t ∈ confirmedBy chain, ¬(t.isReward ∧ 2 ≤ t.version) ∧ ∃ output ∈ t.outputs, output.amount = amount)
  toNat_getD : ∀ amount ≠ 0, (counts.getD amount 0).toNat = spendings chain amount

/-- The entries of all transactions of a chain tell how many of their inputs spend an output of an amount other than
zero. -/
theorem total_confirmedBy (chain : List Extension) (hamount : amount ≠ 0) :
    total ((confirmedBy chain).flatMap ofTransaction) amount = spendings chain amount := by
  rw [total_flatMap, spendings, List.countP_flatMap]
  exact congrArg List.sum (List.map_congr_left fun t _ => total_ofTransaction t hamount)

/-- An entry of an amount is made by a transaction of the chain. -/
theorem exists_mem_confirmedBy {chain : List Extension} :
    (∃ count, (amount, count) ∈ (confirmedBy chain).flatMap ofTransaction) ↔ amount ≠ 0 ∧
      ((∃ t ∈ confirmedBy chain, ∃ keyOffsets keyImage, .keyed amount keyOffsets keyImage ∈ t.inputs) ∨
        ∃ t ∈ confirmedBy chain, ¬(t.isReward ∧ 2 ≤ t.version) ∧ ∃ output ∈ t.outputs, output.amount = amount) := by
  simp only [List.mem_flatMap]
  rw [exists_comm]
  simp only [exists_and_left, exists_mem_ofTransaction, and_left_comm, ← and_or_left, ← exists_or]

/-- Entries that add up to the numbers of a chain are those of its transactions. -/
theorem Tallies.counts {counts : SpentCounts} {chain : List Extension}
    (h : counts.Tallies ((confirmedBy chain).flatMap ofTransaction)) : counts.Counts chain where
  mem_iff amount := (h.mem_iff amount).trans exists_mem_confirmedBy
  toNat_getD amount hamount := (h.toNat_getD amount).trans (total_confirmedBy chain hamount)

end SpentCounts

namespace History.Faithful

open SpentCounts

variable {σ : Type} [Store σ] [Store.Lawful σ] {h : History σ}

/-- The transactions at a height are those that the block of the chain at this position confirms. -/
theorem transactionsAt (hf : h.Faithful) (hbuilt : ∀ e ∈ h.chain, e.Built) (hdigests : DigestsDiffer h.chain)
    {height : UInt64} {e : Extension} (he : h.chain[height.toNat]? = some e) :
    SpentCounts.transactionsAt (Reader.ofStore h.ledger.store) height = .ok e.confirmed := by
  have hmem : e ∈ h.chain := List.mem_of_getElem? he
  have hlisted : listed (Reader.ofStore h.ledger.store) e.block.txHashes = .ok e.transactions := by
    rw [listed, ← (hf.valid.follows he).listed, mapM_eq_ok_iff, List.forall₂_map_left_iff, List.forall₂_same]
    intro t ht
    rw [hf.reader_transaction hbuilt (List.mem_flatMap.mpr ⟨e, hmem, List.mem_cons_of_mem _ ht⟩)]
  rw [SpentCounts.transactionsAt, hf.reader_block hbuilt hdigests, he]
  change (listed _ e.block.txHashes).map _ = _
  rw [hlisted]
  rfl

/-- The next blocks add the entries of their transactions. -/
theorem addBlocks_eq_addAll (hf : h.Faithful) (hbuilt : ∀ e ∈ h.chain, e.Built) (hdigests : DigestsDiffer h.chain)
    {blocks : ℕ} {height : UInt64} (hend : height.toNat + blocks = h.chain.length) (counts : SpentCounts) :
    addBlocks (Reader.ofStore h.ledger.store) blocks height counts =
      addAll counts ((confirmedBy (h.chain.drop height.toNat)).flatMap ofTransaction) := by
  induction blocks generalizing height counts with
  | zero =>
    rw [List.drop_eq_nil_of_le (by omega)]
    rfl
  | succ blocks ih =>
    have hlt : height.toNat < h.chain.length := by omega
    have hsize := hf.length_lt
    have habove : (height + 1).toNat = height.toNat + 1 := Ledger.toNat_above (by omega)
    rw [addBlocks, addBlock, hf.transactionsAt hbuilt hdigests (List.getElem?_eq_getElem hlt),
      List.drop_eq_getElem_cons hlt, confirmedBy, List.flatMap_cons, List.flatMap_append, addAll_append,
      ← habove, ← foldlM_eq_addAll addTransaction_eq_addAll]
    exact congrArg _ (funext fun sums => ih (by omega) sums)

/-- A scan adds the entries of all transactions that the chain confirms. -/
theorem scan_eq_addAll (hf : h.Faithful) (hbuilt : ∀ e ∈ h.chain, e.Built) (hdigests : DigestsDiffer h.chain) :
    scan (Reader.ofStore h.ledger.store) = addAll ∅ ((confirmedBy h.chain).flatMap ofTransaction) := by
  obtain ⟨n, hcount, hlength⟩ := hf.answers.blockCount
  rw [Holdings.hashes_ofChain, List.length_map] at hlength
  have hblocks : blockCount (Reader.ofStore h.ledger.store) = .ok n := by
    rw [blockCount]
    change ((Store.blockCount h.ledger.store).mapError _) = _
    rw [hcount]
    rfl
  rw [scan, hblocks]
  exact hf.addBlocks_eq_addAll hbuilt hdigests ((Nat.zero_add _).trans hlength) ∅

/-- A scan gives the numbers of the chain, or else one of them is more than a counter holds. -/
theorem scan_cases (hf : h.Faithful) (hbuilt : ∀ e ∈ h.chain, e.Built) (hdigests : DigestsDiffer h.chain) :
    (∃ counts, scan (Reader.ofStore h.ledger.store) = .ok counts ∧ counts.Counts h.chain) ∨
      (scan (Reader.ofStore h.ledger.store) = .error .overflow ∧
        ∃ amount, UInt64.size ≤ spendings h.chain amount) := by
  rw [hf.scan_eq_addAll hbuilt hdigests]
  obtain ⟨counts, hcounts, htallies, -⟩ | ⟨hhalts, amount, hlarge⟩ :=
    addAll_empty SpentError ((confirmedBy h.chain).flatMap ofTransaction)
  · exact .inl ⟨counts, hcounts, htallies.counts⟩
  · refine .inr ⟨hhalts, amount, ?_⟩
    have hamount : amount ≠ 0 :=
      (exists_mem_confirmedBy.mp (exists_of_total_pos (Nat.lt_of_lt_of_le (Nat.two_pow_pos 64) hlarge))).1
    rw [← total_confirmedBy _ hamount]
    exact hlarge

end History.Faithful

/-- After every run from an empty store, a scan of the ledger counts the keyed inputs of each amount over the
transactions that the chain confirms, each of which it confirms once. This holds if the blocks and transactions that
were appended were put together, the digests of different blocks that the run took differ, and the stored transactions
take no more bytes than 64 bits can address. Whatever they take, the scan halts only if there are more inputs of one
amount than a counter tells. -/
theorem scanned_run (checkpoints : Checkpoints) (calls : List LedgerCall)
    (hbuilt : ∀ e, .append e ∈ calls → e.Built) :
    InEveryRun checkpoints calls fun h =>
      DigestsDiffer h.chain →
        ((confirmedBy h.chain).map Transaction.hash).Nodup ∧
        (storedBytes h.chain < UInt64.size → ∃ counts,
          SpentCounts.scan (Reader.ofStore h.ledger.store) = .ok counts ∧ counts.Counts h.chain) ∧
        ((∃ counts, SpentCounts.scan (Reader.ofStore h.ledger.store) = .ok counts ∧ counts.Counts h.chain) ∨
          (SpentCounts.scan (Reader.ofStore h.ledger.store) = .error .overflow ∧
            ∃ amount, UInt64.size ≤ spendings h.chain amount)) := by
  apply inEveryRun_of_faithful
  intro σ _ _ h hf happended hcheckpoints hdigests
  have hcases := hf.scan_cases (fun e he => hbuilt e (happended e he)) hdigests
  refine ⟨hf.valid.nodup, fun hbytes => hcases.resolve_right ?_, hcases⟩
  rintro ⟨-, amount, hlarge⟩
  exact absurd (hlarge.trans (spendings_le_storedBytes h.chain amount)) hbytes.not_ge

/-- In a ledger of two blocks one output of amount 5 is known to be spent. -/
theorem scanned_twoBlocks :
    (∀ e, .append e ∈ twoBlocks → e.Built) ∧
    (Ledger.run { store := ({} : Memory), checkpoints := upperPinned } twoBlocks).chain = [lower, upper] ∧
    DigestsDiffer [lower, upper] ∧ storedBytes [lower, upper] < UInt64.size ∧
    ∃ counts, SpentCounts.scan (Reader.ofStore
        (Ledger.run { store := ({} : Memory), checkpoints := upperPinned } twoBlocks).ledger.store) = .ok counts ∧
      5 ∈ counts ∧ (counts.getD 5 0).toNat = 1 := by
  have hbytes : storedBytes [lower, upper] < UInt64.size := by decide +kernel
  have hrun := (scanned_run upperPinned twoBlocks fun e => built_twoBlocks).memory ∅ false
  obtain ⟨-, hscans, -⟩ := hrun (chain_twoBlocks.symm ▸ digestsDiffer_twoBlocks)
  obtain ⟨counts, hcounts, hmeans⟩ := hscans (chain_twoBlocks.symm ▸ hbytes)
  rw [chain_twoBlocks] at hmeans
  refine ⟨fun e => built_twoBlocks, chain_twoBlocks, digestsDiffer_twoBlocks, hbytes, counts, hcounts,
    (hmeans.mem_iff 5).mpr ⟨by decide, .inl ⟨spending, by decide +kernel, [0], .zero, by decide +kernel⟩⟩, ?_⟩
  rw [hmeans.toNat_getD 5 (by decide)]
  decide +kernel

end RingDepth
