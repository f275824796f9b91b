import RingDepth.Codec
import RingDepth.Proofs.Bytes
import RingDepth.Proofs.Outcome

/-!
# Codecs that lose nothing

A codec is lawful if a value written before any other bytes reads back and leaves these bytes, and if
what reads as a value starts with the written form of this value. The second law leaves no room for a
second written form: two byte strings that read as one value differ only behind it.

A list is written with its length in eight bytes, so the first law needs lists of fewer than `2 ^ 64`
entries, as all lists in memory are. Values that were read have them.
-/

namespace RingDepth.Codec

variable {α β : Type}

/-- Types whose stored form loses nothing: what was written reads back, whatever follows it, and what reads as
a value begins with its written form. A value fits if its lists have lengths that can be written. -/
class Lawful (α : Type) [Codec α] where
  Fits : α → Prop
  decode_encode : ∀ (x : α) (rest : Bytes), Fits x → decode (encode x ++ rest) = .ok (x, rest)
  encode_of_decode : ∀ {bs rest : Bytes} {x : α},
    decode bs = .ok (x, rest) → Fits x ∧ encode x ++ rest = bs

export Lawful (Fits decode_encode encode_of_decode)

/-- A value at the front of a byte string reads. -/
theorem read_encode_append [Codec α] [Lawful α] {x : α} (h : Fits x) (rest : Bytes) :
    read (encode x ++ rest) = .ok x := by
  rw [read, decode_encode x rest h]
  rfl

/-- A written value reads back. -/
theorem read_encode [Codec α] [Lawful α] {x : α} (h : Fits x) : read (encode x) = .ok x := by
  simpa using read_encode_append h []

/-- Bytes that read as a value are its written form and something behind it. -/
theorem encode_of_read [Codec α] [Lawful α] {bs : Bytes} {x : α} (h : read bs = .ok x) :
    Fits x ∧ ∃ rest, bs = encode x ++ rest := by
  obtain ⟨⟨y, rest⟩, hdecode, rfl⟩ := map_eq_ok_iff.mp h
  obtain ⟨hfits, hbytes⟩ := encode_of_decode hdecode
  exact ⟨hfits, rest, hbytes.symm⟩

/-- Taking as many bytes as there are in front gives these. -/
theorem takeBytes_append (front rest : Bytes) :
    takeBytes front.length (front ++ rest) = .ok (front, rest) := by
  induction front with
  | nil => rfl
  | cons b bs ih => simp [takeBytes, ih, Except.map]

/-- Bytes that were taken stood in front. -/
theorem eq_append_of_takeBytes {n : ℕ} {bs taken rest : Bytes}
    (h : takeBytes n bs = .ok (taken, rest)) : taken.length = n ∧ taken ++ rest = bs := by
  induction n generalizing bs taken with
  | zero =>
    cases h
    exact ⟨rfl, rfl⟩
  | succ n ih =>
    cases bs with
    | nil => cases h
    | cons b bs =>
      rw [takeBytes] at h
      obtain ⟨⟨more, last⟩, hmore, heq⟩ := map_eq_ok_iff.mp h
      cases heq
      obtain ⟨hlength, happend⟩ := ih hmore
      exact ⟨by simp [hlength], by simp [happend]⟩

/-- A number that fits its width reads back. -/
theorem takeNat_littleEndian {width n : ℕ} (hn : n < 256 ^ width) (rest : Bytes) :
    takeNat width (Bytes.littleEndian width n ++ rest) = .ok (n, rest) := by
  have htake := takeBytes_append (Bytes.littleEndian width n) rest
  rw [Bytes.length_littleEndian] at htake
  simp only [takeNat, htake, Except.map, Bytes.ofLittleEndian_littleEndian, Nat.mod_eq_of_lt hn]

/-- A number that was read fits its width, and its written form stood in front. -/
theorem littleEndian_of_takeNat {width n : ℕ} {bs rest : Bytes}
    (h : takeNat width bs = .ok (n, rest)) :
    n < 256 ^ width ∧ Bytes.littleEndian width n ++ rest = bs := by
  obtain ⟨⟨taken, last⟩, htake, heq⟩ := map_eq_ok_iff.mp h
  cases heq
  obtain ⟨rfl, happend⟩ := eq_append_of_takeBytes htake
  exact ⟨Bytes.ofLittleEndian_lt taken, by rw [Bytes.littleEndian_ofLittleEndian, happend]⟩

instance : Lawful UInt8 where
  Fits _ := True
  decode_encode _ _ _ := rfl
  encode_of_decode {bs rest x} h := by
    cases bs with
    | nil => cases h
    | cons b bs =>
      cases h
      exact ⟨trivial, rfl⟩

instance : Lawful UInt32 where
  Fits _ := True
  decode_encode x rest _ := by
    have hx : x.toNat < 256 ^ 4 := x.toNat_lt
    change (takeNat 4 (Bytes.littleEndian 4 x.toNat ++ rest)).map _ = _
    simp only [takeNat_littleEndian hx, Except.map, UInt32.ofNat_toNat]
  encode_of_decode {bs rest x} h := by
    obtain ⟨⟨n, last⟩, htake, heq⟩ := map_eq_ok_iff.mp h
    cases heq
    obtain ⟨hn, happend⟩ := littleEndian_of_takeNat htake
    refine ⟨trivial, ?_⟩
    change Bytes.littleEndian 4 (UInt32.ofNat n).toNat ++ rest = bs
    rw [UInt32.toNat_ofNat_of_lt' hn, happend]

instance : Lawful UInt64 where
  Fits _ := True
  decode_encode x rest _ := by
    have hx : x.toNat < 256 ^ 8 := x.toNat_lt
    change (takeNat 8 (Bytes.littleEndian 8 x.toNat ++ rest)).map _ = _
    simp only [takeNat_littleEndian hx, Except.map, UInt64.ofNat_toNat]
  encode_of_decode {bs rest x} h := by
    obtain ⟨⟨n, last⟩, htake, heq⟩ := map_eq_ok_iff.mp h
    cases heq
    obtain ⟨hn, happend⟩ := littleEndian_of_takeNat htake
    refine ⟨trivial, ?_⟩
    change Bytes.littleEndian 8 (UInt64.ofNat n).toNat ++ rest = bs
    rw [UInt64.toNat_ofNat_of_lt' hn, happend]

instance {kind : Identifier.Kind} : Lawful (Identifier kind) where
  Fits _ := True
  decode_encode x rest _ := by
    have htake := takeBytes_append x.bytes rest
    rw [x.length_bytes] at htake
    simp [decode, encode, htake]
  encode_of_decode {bs rest x} h := by
    simp only [decode] at h
    split at h
    · cases h
    · rename_i taken last htake
      split at h
      · rename_i y hy
        cases h
        obtain ⟨-, happend⟩ := eq_append_of_takeBytes htake
        exact ⟨trivial, by rw [← happend, ← Identifier.bytes_of_ofBytes?_eq_some hy]; rfl⟩
      · cases h

instance [Codec α] [Codec β] [Lawful α] [Lawful β] : Lawful (α × β) where
  Fits p := Fits p.1 ∧ Fits p.2
  decode_encode p rest h := by
    change (do
      let (x, bs) ← decode (encode p.1 ++ encode p.2 ++ rest)
      let (y, bs) ← decode bs
      return ((x, y), bs) : Except DecodeError ((α × β) × Bytes)) = _
    rw [List.append_assoc, decode_encode p.1 _ h.1]
    simp only [bind, Except.bind, decode_encode p.2 _ h.2]
    rfl
  encode_of_decode {bs rest p} h := by
    obtain ⟨⟨x, bs'⟩, hx, h⟩ := bind_eq_ok_iff.mp h
    obtain ⟨⟨y, last⟩, hy, heq⟩ := bind_eq_ok_iff.mp h
    cases heq
    obtain ⟨hfitsx, rfl⟩ := encode_of_decode hx
    obtain ⟨hfitsy, rfl⟩ := encode_of_decode hy
    exact ⟨⟨hfitsx, hfitsy⟩, List.append_assoc _ _ _⟩

/-- Values that were written one after the other read back. -/
theorem decodeMany_flatMap_encode [Codec α] [Lawful α] {xs : List α} (h : ∀ x ∈ xs, Fits x)
    (rest : Bytes) : decodeMany α xs.length (xs.flatMap encode ++ rest) = .ok (xs, rest) := by
  induction xs with
  | nil => rfl
  | cons x xs ih =>
    obtain ⟨hx, hxs⟩ := List.forall_mem_cons.mp h
    rw [List.flatMap_cons, List.append_assoc, List.length_cons, decodeMany, decode_encode x _ hx]
    simp only [bind, Except.bind, ih hxs]
    rfl

/-- Values that were read one after the other stood in front, in their written form. -/
theorem flatMap_encode_of_decodeMany [Codec α] [Lawful α] {n : ℕ} {bs rest : Bytes} {xs : List α}
    (h : decodeMany α n bs = .ok (xs, rest)) :
    xs.length = n ∧ (∀ x ∈ xs, Fits x) ∧ xs.flatMap encode ++ rest = bs := by
  induction n generalizing bs xs with
  | zero =>
    cases h
    exact ⟨rfl, by simp, rfl⟩
  | succ n ih =>
    obtain ⟨⟨x, bs'⟩, hx, h⟩ := bind_eq_ok_iff.mp h
    obtain ⟨⟨more, last⟩, hmore, heq⟩ := bind_eq_ok_iff.mp h
    cases heq
    obtain ⟨hfits, rfl⟩ := encode_of_decode hx
    obtain ⟨hlength, hall, happend⟩ := ih hmore
    refine ⟨by rw [List.length_cons, hlength], List.forall_mem_cons.mpr ⟨hfits, hall⟩, ?_⟩
    rw [List.flatMap_cons, List.append_assoc, happend]

/-- The numbers that eight bytes hold are those below `2 ^ 64`. -/
theorem two_pow_eq : (2 : ℕ) ^ 64 = 256 ^ 8 := by decide

instance [Codec α] [Lawful α] : Lawful (List α) where
  Fits xs := xs.length < 2 ^ 64 ∧ ∀ x ∈ xs, Fits x
  decode_encode xs rest h := by
    obtain ⟨hlength, hfits⟩ := h
    rw [two_pow_eq] at hlength
    change (do
      let (n, bs) ← takeNat 8 (Bytes.littleEndian 8 xs.length ++ xs.flatMap encode ++ rest)
      decodeMany α n bs : Except DecodeError (List α × Bytes)) = _
    rw [List.append_assoc, takeNat_littleEndian hlength]
    simp only [bind, Except.bind, decodeMany_flatMap_encode hfits]
  encode_of_decode {bs rest xs} h := by
    change (do
      let (n, bs) ← takeNat 8 bs
      decodeMany α n bs : Except DecodeError (List α × Bytes)) = .ok (xs, rest) at h
    obtain ⟨⟨n, bs'⟩, hn, hmany⟩ := bind_eq_ok_iff.mp h
    obtain ⟨hlt, hbytes⟩ := littleEndian_of_takeNat hn
    obtain ⟨rfl, hfits, rfl⟩ := flatMap_encode_of_decodeMany hmany
    rw [← two_pow_eq] at hlt
    exact ⟨⟨hlt, hfits⟩, (List.append_assoc _ _ _).trans hbytes⟩

/-- A record is written without loss if its fields are, and if they are all that it is made of. -/
@[reducible] def Lawful.ofFields [codec : Codec α] [Codec β] [Lawful β] (toFields : α → β)
    (fromFields : β → α) (hcodec : codec = Codec.ofFields toFields fromFields)
    (hfrom : ∀ x, fromFields (toFields x) = x) (hto : ∀ y, toFields (fromFields y) = y) :
    Lawful α where
  Fits x := Fits (toFields x)
  decode_encode x rest h := by
    subst hcodec
    change (decode (encode (toFields x) ++ rest)).map _ = _
    simp only [decode_encode _ rest h, Except.map, hfrom]
  encode_of_decode {bs rest x} h := by
    subst hcodec
    obtain ⟨⟨fields, last⟩, hfields, heq⟩ := map_eq_ok_iff.mp h
    cases heq
    change Fits (toFields (fromFields fields)) ∧ encode (toFields (fromFields fields)) ++ rest = bs
    rw [hto]
    exact encode_of_decode hfields

end RingDepth.Codec
