import RingDepth.Proofs.Ledger.ReadBack

/-!
# What a ledger confirms

After every run that begins with an empty store, and whose blocks and transactions were put together, the
blocks that are read back form one chain that meets the checkpoints, all transactions to which they
refer are there, and each transaction that is there is confirmed at exactly one place.

The blocks of a faithful history read back as they were taken, so this is a statement on valid chains.
A place is a position in the list of all confirmed transactions; as their hashes differ, a hash stands
at one position only.
-/

namespace RingDepth

/-- A place at which a transaction is confirmed. -/
inductive TxPlace where
  | reward (height : UInt64)
  | listed (height : UInt64) (position : ℕ)
deriving DecidableEq

/-- Whether the block that is read at the height of a place has a hash there. -/
def TxPlace.Confirms (r : Reader) (hash : TxHash) : TxPlace → Prop
  | reward height => ∃ b, r.block height = .ok (some b) ∧ b.rewardTx.hash = hash
  | listed height position => ∃ b, r.block height = .ok (some b) ∧ b.txHashes[position]? = some hash

/-- What holds of a block that is read at a height: it was made for this height, its parent is the block below
it, it has the hash that is pinned there, and what it confirms is found. -/
structure Ledger.Linked {σ : Type} [Store σ] (l : Ledger σ) (height : UInt64) (b : Block) : Prop where
  placed : b.height = height
  first : height = 0 → b.prevHash = .zero
  parent : height ≠ 0 → ∃ below, (Reader.ofStore l.store).block (height - 1) = .ok (some below) ∧
    b.prevHash = below.hash
  pinned : ∀ pinned, l.checkpoints.get? height = some pinned → b.hash = pinned
  confirmed : ∀ hash ∈ b.rewardTx.hash :: b.txHashes, ∃ t,
    (Reader.ofStore l.store).transaction hash = .ok (some t) ∧ t.hash = hash

/-- A ledger of some number of blocks is sound if there is a linked block at each height below this number and
no other one, and if each transaction that is there is confirmed at exactly one place. -/
structure Ledger.Sound {σ : Type} [Store σ] (l : Ledger σ) (blocks : UInt64) : Prop where
  count : Store.blockCount l.store = .ok blocks
  linked : ∀ height < blocks, ∃ b, (Reader.ofStore l.store).block height = .ok (some b) ∧
    l.Linked height b
  absent : ∀ height, blocks ≤ height → (Reader.ofStore l.store).block height = .ok none
  placed : ∀ hash bytes, Store.transaction l.store hash = .ok bytes →
    ∃! place : TxPlace, place.Confirms (Reader.ofStore l.store) hash

namespace TxPlace

/-- The height of a place. -/
def height : TxPlace → UInt64
  | reward height => height
  | listed height _ => height

/-- The position of a place in a block, at which the reward comes first. -/
def index : TxPlace → ℕ
  | reward _ => 0
  | listed _ position => position + 1

/-- A place is known by its height and its position. -/
theorem eq_of_height_index {p q : TxPlace} (hheight : p.height = q.height) (hindex : p.index = q.index) :
    p = q := by
  cases p <;> cases q <;> simp_all [height, index]

/-- There is a place for each height and position. -/
theorem exists_height_index (h : UInt64) (i : ℕ) : ∃ p : TxPlace, p.height = h ∧ p.index = i := by
  cases i with
  | zero => exact ⟨reward h, rfl, rfl⟩
  | succ i => exact ⟨listed h i, rfl, rfl⟩

end TxPlace

/-- The hashes that a block confirms, that of its reward first. -/
def Block.confirmedHashes (b : Block) : List TxHash := b.rewardTx.hash :: b.txHashes

/-- A hash that stands only once among those of several lists stands at one position of one list. -/
theorem eq_of_nodup_flatMap {α β : Type} {f : α → List β} {xs : List α} (h : (xs.flatMap f).Nodup)
    {i j : ℕ} {a b : α} (ha : xs[i]? = some a) (hb : xs[j]? = some b) {m n : ℕ} {x : β}
    (hm : (f a)[m]? = some x) (hn : (f b)[n]? = some x) : i = j ∧ m = n := by
  obtain ⟨hnodup, hdisjoint⟩ := List.nodup_flatMap.mp h
  obtain ⟨hi, rfl⟩ := List.getElem?_eq_some_iff.mp ha
  obtain ⟨hj, rfl⟩ := List.getElem?_eq_some_iff.mp hb
  have hapart := List.pairwise_iff_getElem.mp hdisjoint
  have hsame : i = j := by
    by_contra hne
    obtain hlt | hgt := Nat.lt_or_gt_of_ne hne
    · exact hapart i j hi hj hlt (List.mem_of_getElem? hm) (List.mem_of_getElem? hn)
    · exact hapart j i hj hi hgt (List.mem_of_getElem? hn) (List.mem_of_getElem? hm)
  subst hsame
  obtain ⟨hlt, -⟩ := List.getElem?_eq_some_iff.mp hm
  refine ⟨rfl, ?_⟩
  rw [← List.getElem?_inj hlt (hnodup _ (List.getElem_mem hi)), hm, hn]

namespace ValidChain

variable {checkpoints : Checkpoints} {chain : List Extension}

/-- The transactions that a block of a valid chain confirms have the hashes that it names. -/
theorem map_hash_confirmed (h : ValidChain checkpoints chain) {e : Extension} (he : e ∈ chain) :
    e.confirmed.map Transaction.hash = e.block.confirmedHashes := by
  obtain ⟨i, hi⟩ := List.getElem?_of_mem he
  rw [Extension.confirmed, List.map_cons, (h.follows hi).listed]
  rfl

/-- The hashes of all confirmed transactions are those that the blocks of a valid chain name. -/
theorem map_hash_confirmedBy (h : ValidChain checkpoints chain) :
    (confirmedBy chain).map Transaction.hash =
      chain.flatMap fun e => e.block.confirmedHashes := by
  rw [confirmedBy, List.map_flatMap, List.flatMap_congr]
  intro e he
  exact h.map_hash_confirmed he

end ValidChain

namespace History.Faithful

variable {σ : Type} [Store σ] [Store.Lawful σ] {h : History σ}

/-- The chain is shorter than a counter can tell. -/
theorem length_lt (hf : h.Faithful) : h.chain.length < UInt64.size := by
  obtain ⟨n, -, hlength⟩ := hf.answers.blockCount
  rw [Holdings.hashes_ofChain, List.length_map] at hlength
  rw [← hlength]
  exact n.toNat_lt

/-- A hash is confirmed at a place exactly when it stands there in the chain. -/
theorem confirms_iff (hf : h.Faithful) (hbuilt : ∀ e ∈ h.chain, e.Built)
    (hdigests : DigestsDiffer h.chain) {hash : TxHash} {p : TxPlace} :
    p.Confirms (Reader.ofStore h.ledger.store) hash ↔ ∃ e,
      h.chain[p.height.toNat]? = some e ∧ e.block.confirmedHashes[p.index]? = some hash := by
  have hblock (height : UInt64) (b : Block) :
      (Reader.ofStore h.ledger.store).block height = .ok (some b) ↔
        ∃ e, h.chain[height.toNat]? = some e ∧ e.block = b := by
    rw [hf.reader_block hbuilt hdigests, Except.ok.injEq, Option.map_eq_some_iff]
  cases p with
  | reward height => simp [TxPlace.Confirms, hblock, TxPlace.height, TxPlace.index, Block.confirmedHashes]
  | listed height position =>
    simp [TxPlace.Confirms, hblock, TxPlace.height, TxPlace.index, Block.confirmedHashes]

/-- A transaction that is there is confirmed at exactly one place. -/
theorem existsUnique_place (hf : h.Faithful) (hbuilt : ∀ e ∈ h.chain, e.Built)
    (hdigests : DigestsDiffer h.chain) {hash : TxHash} {bytes : Bytes}
    (hstored : Store.transaction h.ledger.store hash = .ok bytes) :
    ∃! p : TxPlace, p.Confirms (Reader.ofStore h.ledger.store) hash := by
  obtain ⟨t, ht, rfl, -⟩ := hf.transaction_eq_ok_iff.mp hstored
  have hmem : t.hash ∈ (confirmedBy h.chain).map Transaction.hash := List.mem_map_of_mem ht
  have hnodup := hf.valid.nodup
  rw [hf.valid.map_hash_confirmedBy] at hmem hnodup
  obtain ⟨e, he, hconfirmed⟩ := List.mem_flatMap.mp hmem
  obtain ⟨i, hi⟩ := List.getElem?_of_mem he
  obtain ⟨m, hm⟩ := List.getElem?_of_mem hconfirmed
  obtain ⟨hlt, -⟩ := List.getElem?_eq_some_iff.mp hi
  obtain ⟨p, hheight, hindex⟩ := TxPlace.exists_height_index (UInt64.ofNat i) m
  have hposition : p.height.toNat = i := by
    rw [hheight, UInt64.toNat_ofNat_of_lt' (hlt.trans hf.length_lt)]
  refine ⟨p, (hf.confirms_iff hbuilt hdigests).mpr ⟨e, hposition ▸ hi, hindex ▸ hm⟩, ?_⟩
  -- Any other place is a position of the same hash in lists that hold no hash twice.
  intro q hq
  obtain ⟨other, hother, hn⟩ := (hf.confirms_iff hbuilt hdigests).mp hq
  obtain ⟨hsame, hsameindex⟩ := eq_of_nodup_flatMap hnodup hother hi hn hm
  refine TxPlace.eq_of_height_index ?_ (hsameindex.trans hindex.symm)
  exact UInt64.toNat_inj.mp (hsame.trans hposition.symm)

/-- The block of the chain at a height is linked. -/
theorem linked (hf : h.Faithful) (hbuilt : ∀ e ∈ h.chain, e.Built)
    (hdigests : DigestsDiffer h.chain) {height : UInt64} {e : Extension}
    (he : h.chain[height.toNat]? = some e) : h.ledger.Linked height e.block := by
  have hfollows := hf.valid.follows he
  obtain ⟨hlt, -⟩ := List.getElem?_eq_some_iff.mp he
  have hplaced : e.block.height = height := by
    apply UInt64.toNat_inj.mp
    rw [hfollows.height, List.length_take, Nat.min_eq_left (Nat.le_of_lt hlt)]
  refine ⟨hplaced, ?first, ?parent, ?pinned, ?confirmed⟩
  case first =>
    intro hzero
    subst hzero
    exact hfollows.parent
  case parent =>
    intro hpos
    have hbelow : (height - 1).toNat < h.chain.length := by
      rw [Ledger.toNat_below hpos]
      omega
    have hparent := List.getElem?_eq_getElem hbelow
    refine ⟨h.chain[(height - 1).toNat].block, ?_, ?_⟩
    · rw [hf.reader_block hbuilt hdigests, hparent]
      rfl
    · have hzero : height.toNat ≠ 0 := fun h => hpos (UInt64.toNat_inj.mp h)
      rw [hfollows.parent, lastHash, List.getLast?_take, if_neg hzero, ← Ledger.toNat_below hpos,
        hparent]
      rfl
  case pinned =>
    intro pinned hpinned
    exact hfollows.checkpoint pinned (hplaced ▸ hpinned)
  case confirmed =>
    intro hash hhash
    have hmem : e ∈ h.chain := List.mem_of_getElem? he
    rw [← Block.confirmedHashes, ← hf.valid.map_hash_confirmed hmem] at hhash
    obtain ⟨t, ht, rfl⟩ := List.mem_map.mp hhash
    exact ⟨t, hf.reader_transaction hbuilt (List.mem_flatMap.mpr ⟨e, hmem, ht⟩), rfl⟩

/-- A faithful history of blocks that were put together is sound. -/
theorem sound (hf : h.Faithful) (hbuilt : ∀ e ∈ h.chain, e.Built)
    (hdigests : DigestsDiffer h.chain) : ∃ blocks, h.ledger.Sound blocks := by
  obtain ⟨n, hcount, hlength⟩ := hf.answers.blockCount
  rw [Holdings.hashes_ofChain, List.length_map] at hlength
  refine ⟨n, hcount, ?linked, ?absent, ?placed⟩
  case linked =>
    intro height hheight
    have hlt : height.toNat < h.chain.length := hlength ▸ UInt64.lt_iff_toNat_lt.mp hheight
    have he := List.getElem?_eq_getElem hlt
    refine ⟨h.chain[height.toNat].block, ?_, hf.linked hbuilt hdigests he⟩
    rw [hf.reader_block hbuilt hdigests, he]
    rfl
  case absent =>
    intro height hheight
    have hge : h.chain.length ≤ height.toNat := hlength ▸ UInt64.le_iff_toNat_le.mp hheight
    rw [hf.reader_block hbuilt hdigests, List.getElem?_eq_none hge]
    rfl
  case placed =>
    intro hash bytes hstored
    exact hf.existsUnique_place hbuilt hdigests hstored

end History.Faithful

/-- After every run from an empty store the ledger is sound under the checkpoints that it began with, if
the blocks and transactions that were appended were put together, and the digests of different blocks
that the run took differ. -/
theorem sound_run (checkpoints : Checkpoints) (calls : List LedgerCall)
    (hbuilt : ∀ e, .append e ∈ calls → e.Built) :
    InEveryRun checkpoints calls fun h =>
      DigestsDiffer h.chain →
        h.ledger.checkpoints = checkpoints ∧ ∃ blocks, h.ledger.Sound blocks := by
  apply inEveryRun_of_faithful
  intro σ _ _ h hf happended hcheckpoints hdigests
  have hchain (e : Extension) (he : e ∈ h.chain) : e.Built := hbuilt e (happended e he)
  exact ⟨hcheckpoints, hf.sound hchain hdigests⟩

/-- A block of some height that confirms a list of hashes. -/
def blockOf (height : UInt64) (prevHash : BlockHash) (txHashes : List TxHash) : Block :=
  let rewardTx : Transaction := .new (height + 60) [.terminal height] [⟨5, .zero⟩] []
  let record : BlockRecord :=
    { majorVersion := 1, minorVersion := 0, timestamp := height, prevHash, nonce := 0,
      rewardTx := rewardTx.toRecord, txHashes }
  { hash := .ofContent (Codec.encode record), height, majorVersion := 1, minorVersion := 0,
    timestamp := height, prevHash, nonce := 0, rewardTx, txHashes }

/-- A transaction that spends the reward of the first block. -/
def spending : Transaction := .new 0 [.keyed 5 [0] .zero] [] []

/-- A first block, which confirms its reward only. -/
def lower : Extension := ⟨blockOf 0 .zero [], []⟩

/-- A second block, which confirms a transaction. -/
def upper : Extension := ⟨blockOf 1 lower.block.hash [spending.hash], [spending]⟩

/-- Calls that append the two blocks, after the second one was refused twice: it has no parent at first,
and then the store takes no writes. -/
def twoBlocks : List LedgerCall :=
  [.append upper, .append lower, .refuseWrites true, .append upper, .refuseWrites false,
    .append upper]

/-- A registry that pins the second block. -/
def upperPinned : Checkpoints where
  points := (∅ : Std.ExtTreeMap UInt64 BlockHash).insert 1 upper.block.hash

/-- Such a block with its transactions was put together, if these were. -/
theorem built_blockOf (height : UInt64) (prevHash : BlockHash) (ts : List Transaction)
    (hlength : ts.length < 2 ^ 64) (hbuilt : ∀ t ∈ ts, t.Built)
    (hfits : ∀ t ∈ ts, Codec.Fits t.toRecord) :
    (Extension.mk (blockOf height prevHash (ts.map Transaction.hash)) ts).Built := by
  have hinput : Codec.Fits [InputRecord.gen height] :=
    ⟨show 1 < 2 ^ 64 by decide, List.forall_mem_singleton.mpr trivial⟩
  have houtput : Codec.Fits [Output.mk 5 .zero] :=
    ⟨by decide, List.forall_mem_singleton.mpr ⟨trivial, trivial⟩⟩
  have hextra : Codec.Fits ([] : Bytes) := ⟨by decide, List.forall_mem_nil _⟩
  have hlisted : Codec.Fits (ts.map Transaction.hash) :=
    ⟨(List.length_map _).trans_lt hlength, fun _ _ => trivial⟩
  exact ⟨.ofRecord (Block.ofRecord_eq_ok_iff.mpr ⟨rfl, rfl, rfl, rfl⟩), hbuilt,
    ⟨trivial, trivial, trivial, trivial, trivial,
      ⟨trivial, trivial, hinput, houtput, hextra⟩, hlisted⟩, hfits⟩

/-- The lengths in a transaction with one input can be written, if those of its ring and its outputs can. -/
theorem fits_keyed (amount : UInt64) {keyOffsets : List UInt64} (keyImage : KeyImage)
    {outputs : List Output} (hring : keyOffsets.length < 2 ^ 64) (houtputs : outputs.length < 2 ^ 64) :
    Codec.Fits (Transaction.new 0 [.keyed amount keyOffsets keyImage] outputs []).toRecord := by
  have hinput : Codec.Fits [InputRecord.toKey amount keyOffsets keyImage] :=
    ⟨show 1 < 2 ^ 64 by decide, List.forall_mem_singleton.mpr ⟨hring, fun _ _ => trivial⟩⟩
  exact ⟨trivial, trivial, hinput, ⟨houtputs, fun _ _ => ⟨trivial, trivial⟩⟩,
    ⟨show 0 < 2 ^ 64 by decide, List.forall_mem_nil _⟩⟩

/-- The blocks and the transaction were put together. -/
theorem built_twoBlocks {e : Extension} (he : .append e ∈ twoBlocks) : e.Built := by
  have hlower : lower.Built :=
    built_blockOf _ _ [] (by decide) (List.forall_mem_nil _) (List.forall_mem_nil _)
  have hupper : upper.Built :=
    built_blockOf _ _ [spending] (by decide) (List.forall_mem_singleton.mpr (.new _ _ _ _))
      (List.forall_mem_singleton.mpr (fits_keyed 5 .zero (by decide) (by decide)))
  have hcase : e = upper ∨ e = lower := by
    simpa [twoBlocks, or_comm, or_left_comm] using he
  obtain rfl | rfl := hcase
  · exact hupper
  · exact hlower

/-- A store in memory takes both blocks. -/
theorem chain_twoBlocks :
    (Ledger.run { store := ({} : Memory), checkpoints := upperPinned } twoBlocks).chain =
      [lower, upper] := by decide +kernel

/-- Their digests differ. -/
theorem digestsDiffer_twoBlocks : DigestsDiffer [lower, upper] := .of_nodup (by decide +kernel)

/-- The two blocks make a sound ledger. -/
theorem sound_twoBlocks :
    (∀ e, .append e ∈ twoBlocks → e.Built) ∧
    (Ledger.run { store := ({} : Memory), checkpoints := upperPinned } twoBlocks).chain =
      [lower, upper] ∧
    DigestsDiffer [lower, upper] ∧
    ∃ blocks, (Ledger.run { store := ({} : Memory), checkpoints := upperPinned }
      twoBlocks).ledger.Sound blocks := by
  have hrun := (sound_run upperPinned twoBlocks fun e => built_twoBlocks).memory ∅ false
  have hsound := hrun (chain_twoBlocks.symm ▸ digestsDiffer_twoBlocks)
  exact ⟨fun e => built_twoBlocks, chain_twoBlocks, digestsDiffer_twoBlocks, hsound.2⟩

end RingDepth
