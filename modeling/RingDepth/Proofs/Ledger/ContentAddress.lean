import RingDepth.Proofs.Ledger.ReadBack

/-!
# Content addresses

A store is content-addressed if what stands under a hash has this hash as digest. A ledger takes the
hash of a block or transaction from the value and the bytes from its stored form. The two agree for
values that were put together. For values that were read from bytes they agree if nothing stood behind
the stored form: reading leaves trailing bytes alone, but the digest is taken over all bytes.

So a run leaves a content-addressed store exactly when each value that it left there is named by its
stored form, and the values that are not were read with trailing bytes.
-/

namespace RingDepth

/-- Transactions that any of the ways to make one gives. -/
def Transaction.Constructed (t : Transaction) : Prop :=
  t.Built ∨ ∃ bytes, Transaction.decode bytes = .ok t

/-- Blocks that any of the ways to make one gives. -/
def Block.Constructed (b : Block) : Prop :=
  b.Built ∨ ∃ bytes, Block.decode bytes = .ok b

/-- A block and its transactions were made in any of the ways to make one. -/
structure Extension.Constructed (e : Extension) : Prop where
  block : e.block.Constructed
  transactions : ∀ t ∈ e.transactions, t.Constructed

/-- Transactions that are read from their stored form with further bytes behind it. -/
def Transaction.Trailing (t : Transaction) : Prop :=
  ∃ rest, rest ≠ [] ∧ Transaction.decode (t.encode ++ rest) = .ok t

/-- Blocks that are read from their stored form with further bytes behind it. -/
def Block.Trailing (b : Block) : Prop :=
  ∃ rest, rest ≠ [] ∧ Block.decode (b.encode ++ rest) = .ok b

/-- A name that is taken over a stored form and what stands behind it is that of the form, unless
something does stand there. -/
theorem named_or_trailing {kind : Identifier.Kind} {hash : Identifier kind} {form rest : Bytes}
    (h : hash = .ofContent (form ++ rest)) : hash = .ofContent form ∨ rest ≠ [] := by
  by_cases hrest : rest = []
  · rw [hrest, List.append_nil] at h
    exact .inl h
  · exact .inr hrest

/-- A transaction is named by its stored form, or was read with further bytes behind it. -/
theorem Transaction.Constructed.named_or_trailing {t : Transaction} (h : t.Constructed) :
    t.NamedByEncoding ∨ t.Trailing := by
  obtain hbuilt | ⟨bytes, hdecode⟩ := h
  · exact .inl hbuilt.namedByEncoding
  · obtain ⟨rest, rfl⟩ := encode_of_decode hdecode
    have hname := RingDepth.named_or_trailing (decode_eq_ok_iff.mp hdecode).1
    exact hname.imp_right fun hrest => ⟨rest, hrest, hdecode⟩

/-- A block is named by its stored form, or was read with further bytes behind it. -/
theorem Block.Constructed.named_or_trailing {b : Block} (h : b.Constructed) :
    b.NamedByEncoding ∨ b.Trailing := by
  obtain hbuilt | ⟨bytes, hdecode⟩ := h
  · exact .inl hbuilt.namedByEncoding.1
  · obtain ⟨rest, rfl⟩ := encode_of_decode hdecode
    have hname := RingDepth.named_or_trailing (decode_eq_ok_iff.mp hdecode).1
    exact hname.imp_right fun hrest => ⟨rest, hrest, hdecode⟩

/-- The reward of a block fits it, however the block was made. -/
theorem Block.Constructed.rewardFits {b : Block} (h : b.Constructed) : b.RewardFits := by
  obtain hbuilt | ⟨bytes, hdecode⟩ := h
  · exact hbuilt.namedByEncoding.2
  · exact (decode_eq_ok_iff.mp hdecode).2.2

/-- What stands under a hash in a store has this hash as digest. -/
structure Store.ContentAddressed {σ : Type} [Store σ] (s : σ) : Prop where
  transactions : ∀ hash bytes, Store.transaction s hash = .ok bytes → hash = .ofContent bytes
  blocks : ∀ hash bytes, Store.block s hash = .ok bytes → hash = .ofContent bytes

/-- What is read back under a hash from a store reports this hash. -/
structure Store.ReportsHashes {σ : Type} [Store σ] (s : σ) : Prop where
  transactions : ∀ hash bytes t, Store.transaction s hash = .ok bytes →
    Transaction.decode bytes = .ok t → t.hash = hash
  blocks : ∀ hash bytes b, Store.block s hash = .ok bytes → Block.decode bytes = .ok b → b.hash = hash

/-- A value that is read is named by the bytes it is read from, so content addresses are reported. -/
theorem Store.ContentAddressed.reportsHashes {σ : Type} [Store σ] {s : σ} (h : ContentAddressed s) :
    ReportsHashes s where
  transactions hash bytes t hbytes hdecode := by
    rw [(Transaction.decode_eq_ok_iff.mp hdecode).1, h.transactions hash bytes hbytes]
  blocks hash bytes b hbytes hdecode := by
    rw [(Block.decode_eq_ok_iff.mp hdecode).1, h.blocks hash bytes hbytes]

/-- The values that a history left in its store are named by their stored forms. A block that a later one
with its hash replaced is not there any more. -/
structure History.Canonical {σ : Type} (h : History σ) : Prop where
  transactions : ∀ e ∈ h.chain, ∀ t ∈ e.transactions, t.NamedByEncoding
  blocks : ∀ hash e, lastNamed? h.chain hash = some e → e.block.NamedByEncoding

namespace History.Faithful

variable {σ : Type} [Store σ] [Store.Lawful σ] {h : History σ}

/-- The blocks that are stored are the last ones with their hashes, in their stored forms. -/
theorem block_eq_ok_iff (hf : h.Faithful) {hash : BlockHash} {bytes : Bytes} :
    Store.block h.ledger.store hash = .ok bytes ↔
      ∃ e, lastNamed? h.chain hash = some e ∧ e.block.encode = bytes := by
  rw [hf.answers.block, Store.answer_eq_ok_iff, Holdings.blocks_ofChain,
    Option.map_eq_some_iff]

/-- The store of a faithful history is content-addressed exactly when the history is canonical. -/
theorem contentAddressed_iff (hf : h.Faithful) (hmade : ∀ e ∈ h.chain, e.Constructed) :
    Store.ContentAddressed h.ledger.store ↔ h.Canonical := by
  refine ⟨fun haddressed => ?_, fun hcanonical => ?_⟩
  · constructor
    case transactions =>
      intro e he t ht
      have hconfirmed : t ∈ confirmedBy h.chain :=
        List.mem_flatMap.mpr ⟨e, he, List.mem_cons_of_mem _ ht⟩
      exact haddressed.transactions t.hash t.encode
        (hf.transaction_eq_ok_iff.mpr ⟨t, hconfirmed, rfl, rfl⟩)
    case blocks =>
      intro hash e hlast
      have hhash : e.block.hash = hash := by simpa using List.find?_some hlast
      rw [Block.NamedByEncoding, hhash]
      exact haddressed.blocks hash e.block.encode (hf.block_eq_ok_iff.mpr ⟨e, hlast, rfl⟩)
  · constructor
    case transactions =>
      intro hash bytes hbytes
      obtain ⟨t, ht, rfl, rfl⟩ := hf.transaction_eq_ok_iff.mp hbytes
      obtain ⟨e, he, hconfirmed⟩ := List.mem_flatMap.mp ht
      obtain rfl | hlisted := List.mem_cons.mp hconfirmed
      · exact (hmade e he).block.rewardFits.named
      · exact hcanonical.transactions e he t hlisted
    case blocks =>
      intro hash bytes hbytes
      obtain ⟨e, hlast, rfl⟩ := hf.block_eq_ok_iff.mp hbytes
      have hhash : e.block.hash = hash := by simpa using List.find?_some hlast
      rw [← hhash]
      exact hcanonical.blocks hash e hlast

end History.Faithful

/-- After every run from an empty store, with blocks and transactions made in any way, the store is
content-addressed exactly when the values that were left there are named by their stored forms. Then
whatever is read back reports the hash under which it is read. All values that were taken are so named,
except those that were read with further bytes behind their stored forms. -/
theorem contentAddressed_run (checkpoints : Checkpoints) (calls : List LedgerCall)
    (hmade : ∀ e, .append e ∈ calls → e.Constructed) :
    InEveryRun checkpoints calls fun h =>
      (Store.ContentAddressed h.ledger.store ↔ h.Canonical) ∧
      (Store.ContentAddressed h.ledger.store → Store.ReportsHashes h.ledger.store) ∧
      ∀ e ∈ h.chain, (e.block.NamedByEncoding ∨ e.block.Trailing) ∧
        e.block.rewardTx.NamedByEncoding ∧
        ∀ t ∈ e.transactions, t.NamedByEncoding ∨ t.Trailing := by
  apply inEveryRun_of_faithful
  intro σ _ _ h hf happended _
  have hchain (e : Extension) (he : e ∈ h.chain) : e.Constructed := hmade e (happended e he)
  refine ⟨hf.contentAddressed_iff hchain, fun haddressed => haddressed.reportsHashes, ?_⟩
  intro e he
  exact ⟨(hchain e he).block.named_or_trailing, (hchain e he).block.rewardFits.named,
    fun t ht => ((hchain e he).transactions t ht).named_or_trailing⟩

/-- The record of a first block, whose reward has no outputs. -/
def firstRecord : BlockRecord where
  majorVersion := 1
  minorVersion := 0
  timestamp := 0
  prevHash := .zero
  nonce := 0
  rewardTx := (Transaction.new 60 [.terminal 0] [] []).toRecord
  txHashes := []

/-- This block as it is read with further bytes behind its stored form. -/
def firstBlock (rest : Bytes) : Block where
  hash := .ofContent (Codec.encode firstRecord ++ rest)
  height := 0
  majorVersion := 1
  minorVersion := 0
  timestamp := 0
  prevHash := .zero
  nonce := 0
  rewardTx := .new 60 [.terminal 0] [] []
  txHashes := []

/-- The call that appends this block. -/
def appendFirst (rest : Bytes) : List LedgerCall := [.append ⟨firstBlock rest, []⟩]

/-- The stored form of the block and further bytes read as the block, under their digest. -/
theorem decode_firstBlock (rest : Bytes) :
    Block.decode (Codec.encode firstRecord ++ rest) = .ok (firstBlock rest) := by
  have hinputs : Codec.Fits [InputRecord.gen 0] :=
    ⟨by decide, List.forall_mem_singleton.mpr trivial⟩
  have hfits : Codec.Fits firstRecord :=
    ⟨trivial, trivial, trivial, trivial, trivial,
      ⟨trivial, trivial, hinputs, ⟨by decide, List.forall_mem_nil _⟩, by decide,
        List.forall_mem_nil _⟩,
      by decide, List.forall_mem_nil _⟩
  exact Block.decode_eq_ok_iff.mpr ⟨rfl, Codec.read_encode_append hfits rest, ⟨rfl, rfl⟩⟩

/-- The call appends a block that is made by reading it. -/
theorem constructed_appendFirst (rest : Bytes) {e : Extension} (he : .append e ∈ appendFirst rest) :
    e.Constructed := by
  have hcall : LedgerCall.append e = .append ⟨firstBlock rest, []⟩ := List.mem_singleton.mp he
  cases hcall
  exact ⟨.inr ⟨_, decode_firstBlock rest⟩, by simp⟩

/-- A ledger that takes the block as it is read from its stored form alone is content-addressed. -/
theorem contentAddressed_appendFirst :
    (∀ e, .append e ∈ appendFirst [] → e.Constructed) ∧
    (Ledger.run { store := ({} : Memory) } (appendFirst [])).chain = [⟨firstBlock [], []⟩] ∧
    Store.ContentAddressed (Ledger.run { store := ({} : Memory) } (appendFirst [])).ledger.store := by
  have hchain : (Ledger.run { store := ({} : Memory) } (appendFirst [])).chain =
      [⟨firstBlock [], []⟩] := by decide +kernel
  refine ⟨fun e => constructed_appendFirst [], hchain, ?_⟩
  have hrun := (contentAddressed_run {} (appendFirst []) fun e => constructed_appendFirst []).memory
    ∅ false
  refine hrun.1.mpr ⟨?transactions, ?blocks⟩
  case transactions =>
    intro e he
    rw [hchain, List.mem_singleton] at he
    subst he
    exact List.forall_mem_nil _
  case blocks =>
    intro hash e hlast
    have he := List.mem_reverse.mp (List.mem_of_find?_eq_some hlast)
    rw [hchain, List.mem_singleton] at he
    subst he
    rfl

/-- A ledger that takes the block as it is read with one byte behind its stored form is not
content-addressed: the stored form stands under the digest of one byte more, and reports another hash. -/
theorem not_contentAddressed_trailing :
    (∀ e, .append e ∈ appendFirst [0] → e.Constructed) ∧
    ¬ Store.ContentAddressed (Ledger.run { store := ({} : Memory) } (appendFirst [0])).ledger.store ∧
    ¬ Store.ReportsHashes (Ledger.run { store := ({} : Memory) } (appendFirst [0])).ledger.store := by
  have hstored : Store.block (Ledger.run { store := ({} : Memory) } (appendFirst [0])).ledger.store
      (firstBlock [0]).hash = .ok (Codec.encode firstRecord) := by
    decide +kernel
  have hother : (firstBlock [0]).hash ≠ .ofContent (Codec.encode firstRecord) := by decide +kernel
  have hread := decode_firstBlock []
  rw [List.append_nil] at hread
  refine ⟨fun e => constructed_appendFirst [0], ?_, ?_⟩
  · intro haddressed
    exact hother (haddressed.blocks _ _ hstored)
  · intro hreports
    have hsame : (firstBlock []).hash = (firstBlock [0]).hash := hreports.blocks _ _ _ hstored hread
    rw [← hsame] at hother
    exact hother rfl

end RingDepth
