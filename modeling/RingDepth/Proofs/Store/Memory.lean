import RingDepth.Store.Memory
import RingDepth.Proofs.Outcome
import RingDepth.Proofs.Store.Holdings

/-!
# Stores in memory are lawful

The maps of a store in memory hold its holdings as they are. A write numbers the outputs before it
stores the transactions and the block. Each of the three parts changes its own part of the holdings.
-/

namespace RingDepth.Memory

/-- A store in memory keeps its holdings as they are, and has room to count its blocks. -/
structure Represents (s : Memory) (c : Holdings) : Prop where
  blocks : MapHolds s.blocks id id c.blocks
  heights : MapHolds s.heights id id fun height : UInt64 => c.hashes[height.toNat]?
  size : s.heights.size = c.hashes.length
  room : s.heights.size < UInt64.size
  transactions : MapHolds s.transactions id id c.transactions
  outputs : MapHolds s.outputs id id (Holdings.output? c.outputs)
  outputCounts : ∀ amount, (s.outputCount amount).toNat = (c.outputs amount).length

variable {s s' : Memory} {c : Holdings}

/-- The number that an amount gets is the next number of this amount and of no other. -/
theorem getD_insert (counts : Std.ExtTreeMap UInt64 UInt64) (amount other count : UInt64) :
    (counts.insert amount count).getD other 0 =
      if amount = other then count else counts.getD other 0 := by
  rw [Std.ExtTreeMap.getD_insert]
  simp

/-- What a map holds is what is found in it. -/
theorem find_eq_answer {κ ν : Type} [Ord κ] [Std.TransOrd κ] {m : Std.ExtTreeMap κ ν}
    {f : κ → Option ν} (h : MapHolds m id id f) (k : κ) (sought : Missing) :
    find m k sought = Store.answer sought (f k) := by
  rw [find, h.getElem? k]
  cases f k <;> rfl

/-- A store in memory without entries holds nothing, whatever bookkeeping values it has. -/
theorem represents_empty (metadata : Std.ExtTreeMap String Bytes) (failWrites : Bool) :
    Represents { metadata, failWrites } .empty where
  blocks _ := by simp [Holdings.empty]
  heights _ := by simp [Holdings.empty]
  size := rfl
  room := show 0 < UInt64.size by decide
  transactions _ := by simp [Holdings.empty]
  outputs _ := by simp [Holdings.empty, Holdings.output?]
  outputCounts _ := by simp [Holdings.empty, outputCount]

/-! ### Staging -/

/-- Stores the location of the next output of an amount. -/
def appendOutput (s : Memory) (amount : UInt64) (location : OutputLocation) :
    Except (Halt StoreError) Memory := do
  let count ← addCounter (s.outputCount amount) 1
  return { s with
    outputs := s.outputs.insert ⟨amount, s.outputCount amount⟩ location
    outputCounts := s.outputCounts.insert amount count }

/-- Stores the outputs that a block adds, one after the other. -/
def number (s : Memory) (outputs : List (UInt64 × OutputLocation)) : Except (Halt StoreError) Memory :=
  outputs.foldlM (fun s (amount, location) => s.appendOutput amount location) s

/-- Stores the transactions that a block adds. -/
def fill (s : Memory) (entries : List (TxHash × Bytes)) : Memory :=
  entries.foldl (fun s (hash, bytes) => s.insertTransaction hash bytes) s

/-- Nothing staged changes nothing. -/
theorem extend_empty (s : Memory) : s.extend {} = s := by
  have hcounts : s.outputCounts ∪ ∅ = s.outputCounts := by
    apply Std.ExtTreeMap.ext_getElem?
    intro amount
    rw [Std.ExtTreeMap.getElem?_union, Std.ExtTreeMap.getElem?_empty, Option.none_or]
  rw [extend, Std.ExtTreeMap.insertMany_nil, hcounts]

/-- To stage one more output and store what is staged is to store what is staged and then the output. -/
theorem appendOutput_extend (s : Memory) (staged : Staged) (amount : UInt64) (location : OutputLocation) :
    (s.extend staged).appendOutput amount location = (s.stage staged amount location).map s.extend := by
  have hnext : (s.extend staged).outputCount amount = staged.counts.getD amount (s.outputCount amount) :=
    Std.ExtTreeMap.getD_union
  rw [appendOutput, stage, hnext]
  cases (addCounter (staged.counts.getD amount (s.outputCount amount)) 1 : Except (Halt StoreError) UInt64) with
  | error e => rfl
  | ok count =>
    have hcounts : s.outputCounts ∪ staged.counts.insert amount count =
        (s.outputCounts ∪ staged.counts).insert amount count :=
      Std.ExtTreeMap.union_insert_right_eq_insert_union (p := ⟨amount, count⟩)
    change Except.ok _ = Except.ok (s.extend _)
    rw [extend, extend, Std.ExtTreeMap.insertMany_append, hcounts]
    rfl

/-- To stage outputs and store what is staged is to store the outputs one after the other. -/
theorem number_extend (s : Memory) (staged : Staged) (outputs : List (UInt64 × OutputLocation)) :
    (s.extend staged).number outputs =
      (outputs.foldlM (fun staged (amount, location) => s.stage staged amount location) staged).map s.extend := by
  induction outputs generalizing staged with
  | nil => rfl
  | cons entry rest ih =>
    obtain ⟨amount, location⟩ := entry
    rw [number, List.foldlM_cons, List.foldlM_cons]
    dsimp only
    rw [appendOutput_extend]
    cases s.stage staged amount location with
    | error e => rfl
    | ok next => exact ih next

/-- Transactions can be stored before what is staged. -/
theorem extend_fill (s : Memory) (staged : Staged) (entries : List (TxHash × Bytes)) :
    (s.fill entries).extend staged = (s.extend staged).fill entries := by
  induction entries generalizing s with
  | nil => rfl
  | cons entry rest ih => exact ih (s.insertTransaction entry.1 entry.2)

/-- Writing a block stores its outputs one after the other, and then its transactions and the block. -/
theorem writeBlock_eq_number (s : Memory) (w : BlockWrite) :
    s.writeBlock w = do
      let numbered ← s.number w.outputs
      if s.failWrites then
        throw (.failure (.backend (.injected w.height)))
      let written := (numbered.fill w.transactions).insertBlock w.height w.hash w.bytes
      if UInt64.size ≤ written.heights.size then
        throw .overflow
      return written := by
  have hnumber := s.number_extend {} w.outputs
  rw [extend_empty] at hnumber
  rw [hnumber, writeBlock]
  cases w.outputs.foldlM (fun staged (amount, location) => s.stage staged amount location) {} with
  | error e => rfl
  | ok staged =>
    rw [← fill]
    change (if _ then _ else _) = (if _ then _ else _)
    rw [extend_fill]
    rfl

namespace Represents

/-- An output that is appended comes behind those of its amount. -/
theorem appendOutput {amount : UInt64} {location : OutputLocation} (h : Represents s c)
    (happend : s.appendOutput amount location = .ok s') :
    Represents s' { c with outputs := Holdings.putOutput c.outputs (amount, location) } := by
  obtain ⟨count, hcount, heq⟩ := bind_eq_ok_iff.mp happend
  cases heq
  rw [addCounter_eq_ok_iff] at hcount
  have hnumber := h.outputCounts amount
  refine { h with outputs := ?_, outputCounts := fun other => ?_ }
  · rw [Holdings.output?_putOutput hnumber]
    exact h.outputs.insert Function.injective_id _ _
  · rw [Holdings.length_putOutput, outputCount, getD_insert]
    split_ifs
    · rw [hcount, hnumber]
      rfl
    · exact h.outputCounts other

/-- A transaction that is stored is found under its hash. -/
theorem insertTransaction (h : Represents s c) (hash : TxHash) (bytes : Bytes) :
    Represents (s.insertTransaction hash bytes)
      { c with transactions := Holdings.putTransaction c.transactions (hash, bytes) } :=
  { h with transactions := h.transactions.insert Function.injective_id hash bytes }

/-- A block of the next height makes the number of heights one larger. -/
theorem size_insertBlock (h : Represents s c) {height : UInt64}
    (hheight : height.toNat = c.hashes.length) (hash : BlockHash) (bytes : Bytes) :
    (s.insertBlock height hash bytes).heights.size = s.heights.size + 1 :=
  h.heights.size_insert (a := height) (by simp [hheight]) hash

/-- A block of the next height that is stored is the last block. -/
theorem insertBlock (h : Represents s c) {height : UInt64}
    (hheight : height.toNat = c.hashes.length) (hash : BlockHash) (bytes : Bytes)
    (hroom : (s.insertBlock height hash bytes).heights.size < UInt64.size) :
    Represents (s.insertBlock height hash bytes)
      { c with
        hashes := c.hashes ++ [hash]
        blocks := Function.update c.blocks hash (some bytes) } where
  blocks := h.blocks.insert Function.injective_id hash bytes
  heights := by
    rw [Holdings.hash?_concat hheight]
    exact h.heights.insert Function.injective_id height hash
  size := by rw [h.size_insertBlock hheight, h.size, List.length_append, List.length_singleton]
  room := hroom
  transactions := h.transactions
  outputs := h.outputs
  outputCounts := h.outputCounts

/-- A store that takes a block has put its outputs and its transactions before, and has room to count the
block. -/
theorem exists_filled {w : BlockWrite} (h : Represents s c) (hwrite : s.writeBlock w = .ok s') :
    ∃ filled : Memory, s' = filled.insertBlock w.height w.hash w.bytes ∧
      s'.heights.size < UInt64.size ∧
      Represents filled
        { c with
          transactions := w.transactions.foldl Holdings.putTransaction c.transactions
          outputs := w.outputs.foldl Holdings.putOutput c.outputs } := by
  rw [writeBlock_eq_number] at hwrite
  obtain ⟨numbered, happend, hbody⟩ := bind_eq_ok_iff.mp hwrite
  have hnumbered := Holdings.represents_foldlM_putOutput appendOutput h happend
  have hfilled := Holdings.represents_foldl_putTransaction
    (fun entry h => h.insertTransaction entry.1 entry.2) w.transactions hnumbered
  split at hbody
  · cases hbody
  · dsimp only at hbody
    split at hbody
    · cases hbody
    · rename_i hroom
      cases hbody
      exact ⟨_, rfl, Nat.lt_of_not_le hroom, hfilled⟩

/-- Writing a block of the next height adds what the block adds. -/
theorem writeBlock {w : BlockWrite} (h : Represents s c)
    (hheight : w.height.toNat = c.hashes.length) (hwrite : s.writeBlock w = .ok s') :
    Represents s' (c.write w) := by
  obtain ⟨filled, rfl, hroom, hfilled⟩ := h.exists_filled hwrite
  exact hfilled.insertBlock hheight w.hash w.bytes hroom

/-- The lookups of a store in memory answer from its holdings. -/
theorem answers (h : Represents s c) : Store.Answers s c where
  block hash := find_eq_answer h.blocks hash _
  blockHash height := find_eq_answer h.heights height _
  blockCount := by
    refine ⟨_, rfl, ?_⟩
    rw [← h.size]
    exact UInt64.toNat_ofNat_of_lt' h.room
  transaction hash := find_eq_answer h.transactions hash _
  hasTransaction hash := by
    change Except.ok (s.transactions.contains hash) = _
    rw [Std.ExtTreeMap.contains_eq_isSome_getElem?]
    exact congrArg (Except.ok ∘ Option.isSome) (h.transactions.getElem? hash)
  output id := find_eq_answer h.outputs id _
  outputCount amount := ⟨_, rfl, h.outputCounts amount⟩

end Represents

/-- The bookkeeping values of a store, and whether it refuses writes. -/
def settings (s : Memory) : Std.ExtTreeMap String Bytes × Bool := (s.metadata, s.failWrites)

/-- Writing a block leaves the bookkeeping values as they are, and whether writes are refused. -/
theorem settings_writeBlock {w : BlockWrite} (hwrite : s.writeBlock w = .ok s') :
    s'.settings = s.settings := by
  rw [writeBlock_eq_number] at hwrite
  obtain ⟨numbered, happend, hbody⟩ := bind_eq_ok_iff.mp hwrite
  have hnumbered : numbered.settings = s.settings := by
    refine foldlM_preserves (p := fun t : Memory => t.settings = s.settings) ?_ rfl happend
    intro t t' entry ht hnext
    obtain ⟨count, -, heq⟩ := bind_eq_ok_iff.mp hnext
    cases heq
    exact ht
  have hfilled : (w.transactions.foldl (fun s entry => s.insertTransaction entry.1 entry.2)
      numbered).settings = numbered.settings :=
    List.foldlRecOn w.transactions _ (motive := fun t : Memory => t.settings = numbered.settings) rfl
      fun _ ht _ _ => ht
  split at hbody
  · cases hbody
  · dsimp only at hbody
    split at hbody
    · cases hbody
    · cases hbody
      exact hfilled.trans hnumbered

instance : Store.Lawful Memory where
  Represents := Represents
  answers := Represents.answers
  represents_writeBlock := Represents.writeBlock
  metadata_writeBlock hwrite := funext fun key =>
    congrArg (fun settings => find settings.1 key (.metadataKey key)) (settings_writeBlock hwrite)

end RingDepth.Memory
