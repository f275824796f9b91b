import RingDepth.Store.Mapped
import RingDepth.Proofs.Codec.Record
import RingDepth.Proofs.Store.Holdings

/-!
# Stores of tables are lawful

The tables of a ledger directory hold its holdings in a written form: numbers are eight bytes long, so
that no two of them have one key, and the count of an amount reads as the number of its outputs. A write
stores the transactions before it numbers the outputs, and finds each number in the table of counts. An
environment, in a memory map or not, holds what its tables hold.
-/

namespace RingDepth

namespace Tables

/-- A number that was written as a key or a count reads back. -/
theorem number?_numberKey (n : UInt64) : number? (numberKey n) = some n := by
  have hn : n.toNat < 256 ^ 8 := n.toNat_lt
  rw [number?, numberKey, if_pos (Bytes.length_bigEndian _ _), Bytes.ofBigEndian_bigEndian,
    Nat.mod_eq_of_lt hn, UInt64.ofNat_toNat]

/-- Different numbers have different keys. -/
theorem numberKey_injective : Function.Injective numberKey := by
  intro m n h
  have hread : some m = some n := by rw [← number?_numberKey m, h, number?_numberKey]
  exact Option.some.inj hread

/-- Different outputs have different keys. -/
theorem outputKey_injective : Function.Injective outputKey := by
  intro x y h
  have hlength : (numberKey x.amount).length = (numberKey y.amount).length := by
    simp [numberKey]
  obtain ⟨hamount, hindex⟩ := List.append_inj h hlength
  cases x
  cases y
  rw [OutputId.mk.injEq]
  exact ⟨numberKey_injective hamount, numberKey_injective hindex⟩

/-- Tables keep holdings in a written form, and have room to count the blocks. -/
structure Represents (t : Tables) (c : Holdings) : Prop where
  blocks : MapHolds t.blocks Identifier.bytes id c.blocks
  heights : MapHolds t.blockHeights numberKey Identifier.bytes
    fun height : UInt64 => c.hashes[height.toNat]?
  size : t.blockHeights.size = c.hashes.length
  room : t.blockHeights.size < UInt64.size
  transactions : MapHolds t.transactions Identifier.bytes id c.transactions
  outputs : MapHolds t.outputs outputKey Codec.encode (Holdings.output? c.outputs)
  outputCounts : ∀ amount, ∃ n, t.outputCount amount = .ok n ∧ n.toNat = (c.outputs amount).length

variable {t t' : Tables} {c : Holdings}

/-- A count that is written for an amount reads back, and no other count changes. -/
theorem outputCount_insert (t : Tables) (outputs : Table) (amount other count : UInt64) :
    outputCount { t with
        outputs
        outputCounts := t.outputCounts.insert (numberKey amount) (numberKey count) } other =
      if amount = other then .ok count else t.outputCount other := by
  rw [outputCount, Std.ExtTreeMap.getElem?_insert]
  by_cases h : amount = other
  · subst h
    simp [number?_numberKey]
  · have hne : numberKey amount ≠ numberKey other := fun heq => h (numberKey_injective heq)
    simp [h, hne, outputCount]

/-- The output that is appended gets the next number of its amount, which is then one greater. -/
theorem eq_of_appendOutput {amount : UInt64} {location : OutputLocation} {n : UInt64}
    (h : t.appendOutput amount location = .ok (n, t')) :
    t.outputCount amount = .ok n ∧ ∃ next : UInt64, next.toNat = n.toNat + 1 ∧ t' = { t with
      outputs := t.outputs.insert (outputKey ⟨amount, n⟩) (Codec.encode location)
      outputCounts := t.outputCounts.insert (numberKey amount) (numberKey next) } := by
  obtain ⟨index, hindex, hinsert⟩ := bind_eq_ok_iff.mp h
  obtain ⟨stored, hstored, heq⟩ := bind_eq_ok_iff.mp hinsert
  cases heq
  obtain ⟨count, hcount, hraise⟩ := bind_eq_ok_iff.mp hstored
  -- The count is read twice, and storing the location in between leaves it as it was.
  rw [monadLift_eq_ok_iff] at hindex hcount
  have hsame : t.outputCount amount = .ok count := hcount
  obtain rfl : n = count := Except.ok.inj (hindex.symm.trans hsame)
  dsimp only at hraise
  rw [if_neg (UInt64.lt_irrefl n)] at hraise
  obtain ⟨next, hnext, heq⟩ := bind_eq_ok_iff.mp hraise
  cases heq
  exact ⟨hindex, next, addCounter_eq_ok_iff.mp hnext, rfl⟩

/-- Tables without entries hold nothing, whatever bookkeeping values there are. -/
theorem represents_empty (metadata : Table) : Represents { metadata } .empty where
  blocks _ := by simp [Holdings.empty]
  heights _ := by simp [Holdings.empty]
  size := rfl
  room := show 0 < UInt64.size by decide
  transactions _ := by simp [Holdings.empty]
  outputs _ := by simp [Holdings.empty, Holdings.output?]
  outputCounts _ := ⟨0, by simp [outputCount], rfl⟩

namespace Represents

/-- An output that is appended comes behind those of its amount. -/
theorem appendOutput {amount n : UInt64} {location : OutputLocation} (h : Represents t c)
    (happend : t.appendOutput amount location = .ok (n, t')) :
    Represents t' { c with outputs := Holdings.putOutput c.outputs (amount, location) } := by
  obtain ⟨hcount, next, hnext, rfl⟩ := eq_of_appendOutput happend
  obtain ⟨m, hm, hnumber⟩ := h.outputCounts amount
  obtain rfl : n = m := Except.ok.inj (hcount.symm.trans hm)
  refine { h with outputs := ?_, outputCounts := fun other => ?_ }
  · rw [Holdings.output?_putOutput hnumber]
    exact h.outputs.insert outputKey_injective _ _
  · rw [Holdings.length_putOutput, outputCount_insert]
    by_cases hother : amount = other
    · refine ⟨next, if_pos hother, ?_⟩
      rw [if_pos hother, hnext, hnumber]
    · rw [if_neg hother, if_neg hother]
      exact h.outputCounts other

/-- So it does if its number is not asked for. -/
theorem appendOutput_snd {entry : UInt64 × OutputLocation} (h : Represents t c)
    (happend : (t.appendOutput entry.1 entry.2).map Prod.snd = .ok t') :
    Represents t' { c with outputs := Holdings.putOutput c.outputs entry } := by
  obtain ⟨⟨n, appended⟩, happended, rfl⟩ := map_eq_ok_iff.mp happend
  exact h.appendOutput happended

/-- A transaction that is stored is found under its hash. -/
theorem insertTransaction (h : Represents t c) (hash : TxHash) (bytes : Bytes) :
    Represents (t.insertTransaction hash bytes)
      { c with transactions := Holdings.putTransaction c.transactions (hash, bytes) } :=
  { h with transactions := h.transactions.insert Identifier.bytes_injective hash bytes }

/-- A block of the next height makes the number of heights one larger. -/
theorem size_insertBlock (h : Represents t c) {height : UInt64}
    (hheight : height.toNat = c.hashes.length) (hash : BlockHash) (bytes : Bytes) :
    (t.insertBlock height hash bytes).blockHeights.size = t.blockHeights.size + 1 :=
  h.heights.size_insert (a := height) (by simp [hheight]) hash.bytes

/-- A block of the next height that is stored is the last block. -/
theorem insertBlock (h : Represents t c) {height : UInt64}
    (hheight : height.toNat = c.hashes.length) (hash : BlockHash) (bytes : Bytes)
    (hroom : (t.insertBlock height hash bytes).blockHeights.size < UInt64.size) :
    Represents (t.insertBlock height hash bytes)
      { c with
        hashes := c.hashes ++ [hash]
        blocks := Function.update c.blocks hash (some bytes) } where
  blocks := h.blocks.insert Identifier.bytes_injective hash bytes
  heights := by
    rw [Holdings.hash?_concat hheight]
    exact h.heights.insert numberKey_injective height hash
  size := by rw [h.size_insertBlock hheight, h.size, List.length_append, List.length_singleton]
  room := hroom
  transactions := h.transactions
  outputs := h.outputs
  outputCounts := h.outputCounts

/-- Tables to which a block is written have put its outputs and its transactions before, and have room to
count the block. -/
theorem exists_filled {w : BlockWrite} (h : Represents t c) (hwrite : t.writeBlock w = .ok t') :
    ∃ filled : Tables, t' = filled.insertBlock w.height w.hash w.bytes ∧
      t'.blockHeights.size < UInt64.size ∧
      Represents filled
        { c with
          transactions := w.transactions.foldl Holdings.putTransaction c.transactions
          outputs := w.outputs.foldl Holdings.putOutput c.outputs } := by
  obtain ⟨numbered, happend, hbody⟩ := bind_eq_ok_iff.mp hwrite
  have hfilled := Holdings.represents_foldl_putTransaction
    (fun entry h => h.insertTransaction entry.1 entry.2) w.transactions h
  have hnumbered := Holdings.represents_foldlM_putOutput appendOutput_snd hfilled happend
  dsimp only at hbody
  split at hbody
  · cases hbody
  · rename_i hroom
    cases hbody
    exact ⟨_, rfl, Nat.lt_of_not_le hroom, hnumbered⟩

/-- Writing a block of the next height adds what the block adds. -/
theorem writeBlock {w : BlockWrite} (h : Represents t c)
    (hheight : w.height.toNat = c.hashes.length) (hwrite : t.writeBlock w = .ok t') :
    Represents t' (c.write w) := by
  obtain ⟨filled, rfl, hroom, hfilled⟩ := h.exists_filled hwrite
  exact hfilled.insertBlock hheight w.hash w.bytes hroom

end Represents

/-- Writing a block leaves the bookkeeping values as they are. -/
theorem metadata_writeBlock {w : BlockWrite} (hwrite : t.writeBlock w = .ok t') :
    t'.metadata = t.metadata := by
  obtain ⟨numbered, happend, hbody⟩ := bind_eq_ok_iff.mp hwrite
  have hfilled : (w.transactions.foldl (fun t entry => t.insertTransaction entry.1 entry.2)
      t).metadata = t.metadata :=
    List.foldlRecOn w.transactions _ (motive := fun u : Tables => u.metadata = t.metadata) rfl
      fun _ hu _ _ => hu
  have hnumbered : numbered.metadata = t.metadata := by
    refine foldlM_preserves (p := fun u : Tables => u.metadata = t.metadata) ?_ hfilled happend
    intro u u' entry hu hnext
    obtain ⟨⟨n, appended⟩, happended, rfl⟩ := map_eq_ok_iff.mp hnext
    obtain ⟨-, next, -, rfl⟩ := eq_of_appendOutput happended
    exact hu
  dsimp only at hbody
  split at hbody
  · cases hbody
  · cases hbody
    exact hnumbered

end Tables

namespace Environment

variable {e : Environment} {c : Holdings}

/-- What a table holds is found in it, in its written form. -/
theorem find_eq_answer {α β : Type} {m : Table} {key : α → Bytes} {value : β → Bytes}
    {f : α → Option β} (h : MapHolds m key value f) (a : α) (sought : Missing) :
    find m (key a) sought = (Store.answer sought (f a)).map value := by
  rw [find, h a]
  cases f a <;> rfl

/-- Bytes that are found as they are kept. -/
theorem find_eq_answer_bytes {α : Type} {m : Table} {key : α → Bytes} {f : α → Option Bytes}
    (h : MapHolds m key id f) (a : α) (sought : Missing) :
    find m (key a) sought = Store.answer sought (f a) := by
  rw [find_eq_answer h]
  cases f a <;> rfl

/-- Hashes that are kept under their heights are found there. -/
theorem blockHash_eq_answer {f : UInt64 → Option BlockHash}
    (h : MapHolds e.tables.blockHeights Tables.numberKey Identifier.bytes f) (height : UInt64) :
    blockHash e height = Store.answer (.height height) (f height) := by
  rw [blockHash, find_eq_answer h height]
  cases f height with
  | none => rfl
  | some hash => simp [Store.answer, Except.map, bind, Except.bind, pure, Except.pure]

/-- Locations that are kept encoded under the numbers of their outputs are found there. -/
theorem output_eq_answer {f : OutputId → Option OutputLocation}
    (h : MapHolds e.tables.outputs Tables.outputKey Codec.encode f) (id : OutputId) :
    output e id = Store.answer (.output id) (f id) := by
  rw [output, find_eq_answer h id]
  cases f id with
  | none => rfl
  | some location =>
    have hfits : Codec.Fits location := ⟨trivial, trivial⟩
    have hread : Codec.read (Codec.encode location) = .ok location := Codec.read_encode hfits
    simp [Store.answer, Except.map, bind, Except.bind, hread, mapError_ok]

/-- It is known of transactions that are kept under their hashes whether they are there. -/
theorem contains_transactions {f : TxHash → Option Bytes}
    (h : MapHolds e.tables.transactions Identifier.bytes id f) (hash : TxHash) :
    e.tables.transactions.contains hash.bytes = (f hash).isSome := by
  rw [Std.ExtTreeMap.contains_eq_isSome_getElem?, h hash, Option.isSome_map]

/-- The lookups of an environment answer from the holdings of its tables. -/
theorem answers (h : e.tables.Represents c) : Store.Answers e c where
  block hash := find_eq_answer_bytes h.blocks hash _
  blockHash := blockHash_eq_answer h.heights
  blockCount := by
    refine ⟨_, rfl, ?_⟩
    rw [← h.size]
    exact UInt64.toNat_ofNat_of_lt' h.room
  transaction hash := find_eq_answer_bytes h.transactions hash _
  hasTransaction hash := congrArg Except.ok (contains_transactions h.transactions hash)
  output := output_eq_answer h.outputs
  outputCount amount := by
    obtain ⟨n, hn, hlength⟩ := h.outputCounts amount
    exact ⟨n, mapError_eq_ok_iff.mpr hn, hlength⟩

/-- A write to an environment is one to its tables, and leaves all else as it is. -/
theorem exists_tables_of_writeBlock {e' : Environment} {w : BlockWrite}
    (h : Store.writeBlock e w = .ok e') :
    ∃ tables, e.tables.writeBlock w = .ok tables ∧ e' = { e with tables } := by
  obtain ⟨⟨⟩, -, hbody⟩ := bind_eq_ok_iff.mp (within_eq_ok_iff.mp h)
  obtain ⟨tables, htables, heq⟩ := bind_eq_ok_iff.mp hbody
  exact ⟨tables, htables, (Except.ok.inj heq).symm⟩

/-- Writing a block of the next height adds what the block adds. -/
theorem represents_writeBlock {e' : Environment} {w : BlockWrite} (h : e.tables.Represents c)
    (hheight : w.height.toNat = c.hashes.length) (hwrite : Store.writeBlock e w = .ok e') :
    e'.tables.Represents (c.write w) := by
  obtain ⟨tables, htables, rfl⟩ := exists_tables_of_writeBlock hwrite
  exact h.writeBlock hheight htables

/-- Writing a block leaves the bookkeeping values as they are. -/
theorem metadata_writeBlock {e' : Environment} {w : BlockWrite} (hwrite : Store.writeBlock e w = .ok e') :
    Store.metadata e' = Store.metadata e := by
  obtain ⟨tables, htables, rfl⟩ := exists_tables_of_writeBlock hwrite
  funext key
  change metadata _ key = metadata e key
  rw [metadata, metadata, Tables.metadata_writeBlock htables]

instance : Store.Lawful Environment where
  Represents e := e.tables.Represents
  answers := answers
  represents_writeBlock := represents_writeBlock
  metadata_writeBlock := metadata_writeBlock

end Environment

namespace MappedEnvironment

/-- A memory map changes no lookup. -/
theorem answers {m : MappedEnvironment} {c : Holdings}
    (h : m.environment.tables.Represents c) : Store.Answers m c :=
  let h := Environment.answers h
  ⟨h.block, h.blockHash, h.blockCount, h.transaction, h.hasTransaction, h.output, h.outputCount⟩

/-- A write for which the map has room leaves the environment that was written. -/
theorem environment_of_writeBlock {m m' : MappedEnvironment} {w : BlockWrite}
    (h : Store.writeBlock m w = .ok m') : Store.writeBlock m.environment w = .ok m'.environment := by
  obtain ⟨e, he, hbody⟩ := bind_eq_ok_iff.mp h
  rw [monadLift_eq_ok_iff] at hbody
  obtain ⟨pages, -, heq⟩ := bind_eq_ok_iff.mp (mapError_eq_ok_iff.mp hbody)
  cases heq
  exact he

instance : Store.Lawful MappedEnvironment where
  Represents m := m.environment.tables.Represents
  answers := answers
  represents_writeBlock h hheight hwrite :=
    Environment.represents_writeBlock h hheight (environment_of_writeBlock hwrite)
  metadata_writeBlock hwrite := Environment.metadata_writeBlock (environment_of_writeBlock hwrite)

end MappedEnvironment

end RingDepth
