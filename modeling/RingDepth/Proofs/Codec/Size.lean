import RingDepth.Proofs.Bootstrap.Frame

/-!
# Records are as long as their lists

Every value has a stored form of at least one byte, so a list has no more entries than its stored form has
bytes, and the lists in a record have not either. The length of a list that has more entries than eight bytes
can count cannot be written, but such a list has a stored form longer than anything that is read.
-/

namespace RingDepth

namespace Codec

variable {α β : Type}

/-- Types whose values have a stored form that is not empty, and lists with fewer entries than it has bytes.
-/
class Sized (α : Type) [Codec α] [Lawful α] : Prop where
  length_pos : ∀ x : α, 0 < (encode x).length
  fits_of_lt : ∀ x : α, (encode x).length < 2 ^ 64 → Fits x

instance : Sized UInt8 where
  length_pos _ := Nat.zero_lt_one
  fits_of_lt _ _ := trivial

instance : Sized UInt32 where
  length_pos n := by
    change 0 < (Bytes.littleEndian 4 n.toNat).length
    rw [Bytes.length_littleEndian]
    decide
  fits_of_lt _ _ := trivial

instance : Sized UInt64 where
  length_pos n := by
    change 0 < (Bytes.littleEndian 8 n.toNat).length
    rw [Bytes.length_littleEndian]
    decide
  fits_of_lt _ _ := trivial

instance {kind : Identifier.Kind} : Sized (Identifier kind) where
  length_pos x := by
    change 0 < x.bytes.length
    rw [x.length_bytes]
    decide
  fits_of_lt _ _ := trivial

instance [Codec α] [Lawful α] [Sized α] [Codec β] [Lawful β] [Sized β] : Sized (α × β) where
  length_pos p := by
    change 0 < (encode p.1 ++ encode p.2).length
    rw [List.length_append]
    exact Nat.add_pos_left (Sized.length_pos p.1) _
  fits_of_lt p h := by
    change (encode p.1 ++ encode p.2).length < 2 ^ 64 at h
    rw [List.length_append] at h
    exact ⟨Sized.fits_of_lt p.1 (by omega), Sized.fits_of_lt p.2 (by omega)⟩

/-- A list has no more entries than the stored forms of them have bytes. -/
theorem length_le_flatMap_encode [Codec α] [Lawful α] [Sized α] (xs : List α) :
    xs.length ≤ (xs.flatMap encode).length := by
  induction xs with
  | nil => exact Nat.le_refl 0
  | cons x xs ih =>
    have hpos := Sized.length_pos x
    rw [List.flatMap_cons, List.length_append, List.length_cons]
    omega

/-- The stored form of an entry is no longer than those of all entries. -/
theorem length_encode_le [Codec α] {xs : List α} {x : α} (h : x ∈ xs) :
    (encode x).length ≤ (xs.flatMap encode).length := by
  obtain ⟨front, back, rfl⟩ := List.append_of_mem h
  rw [List.flatMap_append, List.flatMap_cons, List.length_append, List.length_append]
  omega

instance [Codec α] [Lawful α] [Sized α] : Sized (List α) where
  length_pos xs := by
    change 0 < (Bytes.littleEndian 8 xs.length ++ xs.flatMap encode).length
    rw [List.length_append, Bytes.length_littleEndian]
    omega
  fits_of_lt xs h := by
    change (Bytes.littleEndian 8 xs.length ++ xs.flatMap encode).length < 2 ^ 64 at h
    rw [List.length_append, Bytes.length_littleEndian] at h
    have hentries := length_le_flatMap_encode xs
    refine ⟨by omega, fun x hx => Sized.fits_of_lt x ?_⟩
    have hentry := length_encode_le hx
    omega

end Codec

open Codec (Sized)

instance : Sized InputRecord where
  length_pos x := by
    have htag (tag : UInt32) (fields : Bytes) : 0 < (Codec.encode tag ++ fields).length := by
      rw [List.length_append]
      exact Nat.add_pos_left (Sized.length_pos tag) _
    cases x <;> exact htag _ _
  fits_of_lt x h := by
    -- The fields of each variant stand behind its number.
    have hfields {α : Type} [Codec α] [Codec.Lawful α] [Sized α] (tag : UInt32) (fields : α)
        (h : (Codec.encode tag ++ Codec.encode fields).length < 2 ^ 64) : Codec.Fits fields := by
      rw [List.length_append] at h
      exact Sized.fits_of_lt fields (by omega)
    cases x with
    | gen height => trivial
    | toScript prev prevout sigset => exact (hfields 1 (prev, prevout, sigset) h).2.2
    | toScriptHash prev prevout script sigset => exact (hfields 2 (prev, prevout, script, sigset) h).2.2
    | toKey amount keyOffsets keyImage => exact (hfields 3 (amount, keyOffsets, keyImage) h).2.1

instance : Sized Output where
  length_pos o := Sized.length_pos (o.amount, o.key)
  fits_of_lt o := Sized.fits_of_lt (o.amount, o.key)

instance : Sized TxRecord where
  length_pos r := Sized.length_pos (r.version, r.unlockTime, r.inputs, r.outputs, r.extra)
  fits_of_lt r := Sized.fits_of_lt (r.version, r.unlockTime, r.inputs, r.outputs, r.extra)

instance : Sized BlockRecord where
  length_pos r := Sized.length_pos (r.majorVersion, r.minorVersion, r.timestamp, r.prevHash, r.nonce,
    r.rewardTx, r.txHashes)
  fits_of_lt r := Sized.fits_of_lt (r.majorVersion, r.minorVersion, r.timestamp, r.prevHash, r.nonce,
    r.rewardTx, r.txHashes)

instance : Sized BlockPackage where
  length_pos p := Sized.length_pos (p.block, p.transactions)
  fits_of_lt p := Sized.fits_of_lt (p.block, p.transactions)

/-- Identifiers have 32 bytes each, and eight count them. -/
theorem length_encode_identifiers {kind : Identifier.Kind} (xs : List (Identifier kind)) :
    (Codec.encode xs).length = 8 + 32 * xs.length := by
  have hlength (x : Identifier kind) (_ : x ∈ xs) : (Codec.encode x).length = 32 := x.length_bytes
  change (Bytes.littleEndian 8 xs.length ++ xs.flatMap Codec.encode).length = _
  rw [List.length_append, Bytes.length_littleEndian, List.length_flatMap, List.map_congr_left hlength,
    List.map_const', List.sum_replicate_nat, Nat.mul_comm]

/-- How long a package is depends on its transactions, the reward of its block, and how many hashes the block
lists. -/
theorem BlockPackage.length_encode (p : BlockPackage) : (Codec.encode p).length =
    54 + (Codec.encode p.block.rewardTx).length + 32 * p.block.txHashes.length +
      (Codec.encode p.transactions).length := by
  obtain ⟨⟨major, minor, timestamp, prevHash, nonce, rewardTx, txHashes⟩, transactions⟩ := p
  have htimestamp : (Codec.encode timestamp).length = 8 := Bytes.length_littleEndian _ _
  have hprev : (Codec.encode prevHash).length = 32 := prevHash.length_bytes
  have hnonce : (Codec.encode nonce).length = 4 := Bytes.length_littleEndian _ _
  have hhashes := length_encode_identifiers txHashes
  change (([major] ++ ([minor] ++ (Codec.encode timestamp ++ (Codec.encode prevHash ++
    (Codec.encode nonce ++ (Codec.encode rewardTx ++ Codec.encode txHashes)))))) ++
      Codec.encode transactions).length = _
  simp only [List.length_append, List.length_singleton, htimestamp, hprev, hnonce, hhashes]
  omega

/-- A package whose stored form goes into a chunk that may be read can be written without loss. -/
theorem BlockPackage.fits_of_length {p : BlockPackage} (h : (Codec.encode p).length ≤ maxChunkSize) :
    Codec.Fits p :=
  Sized.fits_of_lt p (Nat.lt_of_le_of_lt h (by decide))

end RingDepth
