import RingDepth.Proofs.Store.Memory
import RingDepth.Proofs.Store.Tables

/-!
# Writes below the next height

A store writes what it is given. A block whose height is taken takes the place of the one there, and its
outputs come behind all others nevertheless. So the heights and the outputs of a store tell the same
story only as long as every block is written at the next height.

One write leaves no mark: that of a block which is there already with all its transactions and which has
no outputs.
-/

namespace RingDepth

namespace Holdings

/-- Puts the hash of a block at its height, behind the others if it is the next one. -/
def putHash (hashes : List BlockHash) (height : ℕ) (hash : BlockHash) : List BlockHash :=
  if height < hashes.length then hashes.set height hash else hashes ++ [hash]

/-- Adds what a block adds whose height may be taken. -/
def put (c : Holdings) (w : BlockWrite) : Holdings :=
  { c.write w with hashes := putHash c.hashes w.height.toNat w.hash }

/-- All that a block adds is there, and it adds no outputs. -/
structure Has (c : Holdings) (w : BlockWrite) : Prop where
  height : c.hashes[w.height.toNat]? = some w.hash
  block : c.blocks w.hash = some w.bytes
  transactions : ∀ entry ∈ w.transactions, c.transactions entry.1 = some entry.2
  outputs : w.outputs = []

/-- A block of the next height is put behind the others. -/
theorem put_eq_write {c : Holdings} {w : BlockWrite} (h : w.height.toNat = c.hashes.length) :
    c.put w = c.write w := by
  have hnot : ¬w.height.toNat < c.hashes.length := by omega
  rw [put, putHash, if_neg hnot]
  rfl

/-- A block whose height is taken is put there. -/
theorem put_eq_set {c : Holdings} {w : BlockWrite} (h : w.height.toNat < c.hashes.length) :
    c.put w = { c.write w with hashes := c.hashes.set w.height.toNat w.hash } := by
  rw [put, putHash, if_pos h]

/-- A hash that takes the place of another changes what is found at this height and at no other. -/
theorem hash?_set {hashes : List BlockHash} {height : UInt64}
    (hheight : height.toNat < hashes.length) (hash : BlockHash) :
    (fun h : UInt64 => (hashes.set height.toNat hash)[h.toNat]?) =
      Function.update (fun h : UInt64 => hashes[h.toNat]?) height (some hash) := by
  funext h
  rw [Function.update_apply, List.getElem?_set]
  by_cases hsame : h = height
  · subst hsame
    simp [hheight]
  · have hne : height.toNat ≠ h.toNat := fun heq => hsame (UInt64.toNat_inj.mp heq).symm
    simp [hsame, hne]

end Holdings

/-- An entry that is there already is not seen to be put again. -/
theorem insert_eq_self {κ ν : Type} [Ord κ] [Std.TransOrd κ] [Std.LawfulEqOrd κ]
    {m : Std.ExtTreeMap κ ν} {k : κ} {v : ν} (h : m[k]? = some v) : m.insert k v = m := by
  apply Std.ExtTreeMap.ext_getElem?
  intro other
  rw [Std.ExtTreeMap.getElem?_insert]
  split
  · rename_i heq
    rw [← Std.LawfulEqOrd.compare_eq_iff_eq.mp heq, h]
  · rfl

/-- An entry under a key that is taken leaves a map as large as it was. -/
theorem MapHolds.size_insert_of_some {κ ν α β : Type} [Ord κ] [Std.TransOrd κ] [Std.LawfulEqOrd κ]
    {m : Std.ExtTreeMap κ ν} {key : α → κ} {value : β → ν} {f : α → Option β}
    (h : MapHolds m key value f) {a : α} (hsome : (f a).isSome = true) (v : ν) :
    (m.insert (key a) v).size = m.size := by
  have hcontains : m.contains (key a) = true := by
    rw [Std.ExtTreeMap.contains_eq_isSome_getElem?, h a, Option.isSome_map, hsome]
  rw [Std.ExtTreeMap.size_insert, hcontains, if_pos rfl]

/-- Stores that overwrite: a block whose height is taken takes the place of the one there, and a block that
is there already with all that it adds leaves the store as it is. -/
class Store.Overwriting (σ : Type) [Store σ] [Store.Lawful σ] : Prop where
  represents_put : ∀ {s s' : σ} {c : Holdings} {w : BlockWrite}, Represents s c →
    w.height.toNat ≤ c.hashes.length → Store.writeBlock s w = .ok s' → Represents s' (c.put w)
  writeBlock_of_has : ∀ {s s' : σ} {c : Holdings} {w : BlockWrite}, Represents s c → c.Has w →
    Store.writeBlock s w = .ok s' → s' = s

namespace Memory

variable {s s' : Memory} {c : Holdings} {w : BlockWrite}

/-- A block that takes the place of another is found there. -/
theorem Represents.insertBlock_set (h : Represents s c) {height : UInt64}
    (hheight : height.toNat < c.hashes.length) (hash : BlockHash) (bytes : Bytes) :
    Represents (s.insertBlock height hash bytes)
      { c with
        hashes := c.hashes.set height.toNat hash
        blocks := Function.update c.blocks hash (some bytes) } := by
  have hsize : (s.insertBlock height hash bytes).heights.size = s.heights.size :=
    h.heights.size_insert_of_some (a := height) (by simp [hheight]) hash
  exact
    { blocks := h.blocks.insert Function.injective_id hash bytes
      heights := by
        rw [Holdings.hash?_set hheight]
        exact h.heights.insert Function.injective_id height hash
      size := by rw [hsize, h.size, List.length_set]
      room := hsize ▸ h.room
      transactions := h.transactions
      outputs := h.outputs
      outputCounts := h.outputCounts }

/-- Writing a block up to the next height puts it there. -/
theorem Represents.put (h : Represents s c) (hheight : w.height.toNat ≤ c.hashes.length)
    (hwrite : s.writeBlock w = .ok s') : Represents s' (c.put w) := by
  obtain hlt | heq := Nat.lt_or_eq_of_le hheight
  · obtain ⟨filled, rfl, -, hfilled⟩ := h.exists_filled hwrite
    rw [Holdings.put_eq_set hlt]
    exact hfilled.insertBlock_set hlt w.hash w.bytes
  · rw [Holdings.put_eq_write heq]
    exact h.writeBlock heq hwrite

/-- Transactions that are there already are not seen to be stored again. -/
theorem fill_eq_self {entries : List (TxHash × Bytes)}
    (h : ∀ entry ∈ entries, s.transactions[entry.1]? = some entry.2) : s.fill entries = s := by
  induction entries with
  | nil => rfl
  | cons entry rest ih =>
    obtain ⟨hentry, hrest⟩ := List.forall_mem_cons.mp h
    have hsame : s.insertTransaction entry.1 entry.2 = s := by
      rw [insertTransaction, insert_eq_self hentry]
    change (s.insertTransaction entry.1 entry.2).fill rest = s
    rw [hsame, ih hrest]

/-- A block that is there already is not seen to be stored again. -/
theorem insertBlock_eq_self {height : UInt64} {hash : BlockHash} {bytes : Bytes}
    (hheight : s.heights[height]? = some hash) (hblock : s.blocks[hash]? = some bytes) :
    s.insertBlock height hash bytes = s := by
  rw [insertBlock, insert_eq_self hheight, insert_eq_self hblock]

/-- Writing a block that is there with all that it adds changes nothing. -/
theorem Represents.writeBlock_of_has (h : Represents s c) (hhas : c.Has w)
    (hwrite : s.writeBlock w = .ok s') : s' = s := by
  have htransactions := fill_eq_self fun entry hentry =>
    (h.transactions.getElem? entry.1).trans (hhas.transactions entry hentry)
  have hblock := insertBlock_eq_self ((h.heights.getElem? w.height).trans hhas.height)
    ((h.blocks.getElem? w.hash).trans hhas.block)
  rw [writeBlock_eq_number, hhas.outputs] at hwrite
  obtain ⟨numbered, hnumbered, hbody⟩ := bind_eq_ok_iff.mp hwrite
  obtain rfl : s = numbered := Except.ok.inj hnumbered
  dsimp only at hbody
  split at hbody
  · cases hbody
  · rw [htransactions, hblock] at hbody
    split at hbody
    · cases hbody
    · exact (Except.ok.inj hbody).symm

instance : Store.Overwriting Memory where
  represents_put := Represents.put
  writeBlock_of_has := Represents.writeBlock_of_has

end Memory

namespace Tables

variable {t t' : Tables} {c : Holdings} {w : BlockWrite}

/-- A block that takes the place of another is found there. -/
theorem Represents.insertBlock_set (h : Represents t c) {height : UInt64}
    (hheight : height.toNat < c.hashes.length) (hash : BlockHash) (bytes : Bytes) :
    Represents (t.insertBlock height hash bytes)
      { c with
        hashes := c.hashes.set height.toNat hash
        blocks := Function.update c.blocks hash (some bytes) } := by
  have hsize : (t.insertBlock height hash bytes).blockHeights.size = t.blockHeights.size :=
    h.heights.size_insert_of_some (a := height) (by simp [hheight]) hash.bytes
  exact
    { blocks := h.blocks.insert Identifier.bytes_injective hash bytes
      heights := by
        rw [Holdings.hash?_set hheight]
        exact h.heights.insert numberKey_injective height hash
      size := by rw [hsize, h.size, List.length_set]
      room := hsize ▸ h.room
      transactions := h.transactions
      outputs := h.outputs
      outputCounts := h.outputCounts }

/-- Writing a block up to the next height puts it there. -/
theorem Represents.put (h : Represents t c) (hheight : w.height.toNat ≤ c.hashes.length)
    (hwrite : t.writeBlock w = .ok t') : Represents t' (c.put w) := by
  obtain hlt | heq := Nat.lt_or_eq_of_le hheight
  · obtain ⟨filled, rfl, -, hfilled⟩ := h.exists_filled hwrite
    rw [Holdings.put_eq_set hlt]
    exact hfilled.insertBlock_set hlt w.hash w.bytes
  · rw [Holdings.put_eq_write heq]
    exact h.writeBlock heq hwrite

/-- Transactions that are there already are not seen to be stored again. -/
theorem foldl_insertTransaction_eq_self {entries : List (TxHash × Bytes)}
    (h : ∀ entry ∈ entries, t.transactions[entry.1.bytes]? = some entry.2) :
    entries.foldl (fun t entry => t.insertTransaction entry.1 entry.2) t = t := by
  induction entries with
  | nil => rfl
  | cons entry rest ih =>
    obtain ⟨hentry, hrest⟩ := List.forall_mem_cons.mp h
    have hsame : t.insertTransaction entry.1 entry.2 = t := by
      rw [insertTransaction, insert_eq_self hentry]
    rw [List.foldl_cons, hsame, ih hrest]

/-- A block that is there already is not seen to be stored again. -/
theorem insertBlock_eq_self {height : UInt64} {hash : BlockHash} {bytes : Bytes}
    (hheight : t.blockHeights[numberKey height]? = some hash.bytes)
    (hblock : t.blocks[hash.bytes]? = some bytes) : t.insertBlock height hash bytes = t := by
  rw [insertBlock, insert_eq_self hheight, insert_eq_self hblock]

/-- Writing a block that is there with all that it adds changes nothing. -/
theorem Represents.writeBlock_of_has (h : Represents t c) (hhas : c.Has w)
    (hwrite : t.writeBlock w = .ok t') : t' = t := by
  have htransactions := foldl_insertTransaction_eq_self fun entry hentry =>
    (h.transactions entry.1).trans (congrArg (Option.map id) (hhas.transactions entry hentry))
  have hblock : t.insertBlock w.height w.hash w.bytes = t := insertBlock_eq_self
    ((h.heights w.height).trans (congrArg (Option.map Identifier.bytes) hhas.height))
    ((h.blocks w.hash).trans (congrArg (Option.map id) hhas.block))
  unfold Tables.writeBlock at hwrite
  dsimp only at hwrite
  rw [htransactions, hhas.outputs] at hwrite
  obtain ⟨numbered, hnumbered, hbody⟩ := bind_eq_ok_iff.mp hwrite
  obtain rfl : t = numbered := Except.ok.inj hnumbered
  rw [hblock] at hbody
  split at hbody
  · cases hbody
  · exact (Except.ok.inj hbody).symm

end Tables

namespace Environment

instance : Store.Overwriting Environment where
  represents_put h hheight hwrite := by
    obtain ⟨tables, htables, rfl⟩ := exists_tables_of_writeBlock hwrite
    exact Tables.Represents.put h hheight htables
  writeBlock_of_has h hhas hwrite := by
    obtain ⟨tables, htables, rfl⟩ := exists_tables_of_writeBlock hwrite
    rw [Tables.Represents.writeBlock_of_has h hhas htables]

end Environment

end RingDepth
