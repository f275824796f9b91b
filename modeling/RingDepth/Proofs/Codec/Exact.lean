import RingDepth.Proofs.Bootstrap.Frame

/-!
# What byte strings hold a record

A byte string holds a record exactly when it begins with the record's written form, and it begins with the
written form of one record at most. This is so for every type of record that is stored or put into a file,
since their codecs are lawful. The lengths of the lists in a record are what its written form has only eight
bytes for.
-/

namespace RingDepth

/-- Whether all of some lengths can be written. -/
def Writable (lengths : List ℕ) : Prop := ∀ n ∈ lengths, n < 2 ^ 64

/-- Lengths can be written if the first one can and the others can. -/
theorem writable_cons {n : ℕ} {lengths : List ℕ} :
    Writable (n :: lengths) ↔ n < 2 ^ 64 ∧ Writable lengths := List.forall_mem_cons

/-- Lengths can be written if those in front can and those behind can. -/
theorem writable_append {front back : List ℕ} :
    Writable (front ++ back) ↔ Writable front ∧ Writable back := List.forall_mem_append

/-- No lengths can be written. -/
theorem writable_nil : Writable [] := List.forall_mem_nil _

/-- The lengths in some values can be written if those in each can. -/
theorem writable_flatMap {α : Type} {xs : List α} {lengths : α → List ℕ} :
    Writable (xs.flatMap lengths) ↔ ∀ x ∈ xs, Writable (lengths x) := List.forall_mem_flatMap

/-- The lengths of the lists in an input. -/
def InputRecord.lengths : InputRecord → List ℕ
  | gen _ => []
  | toScript _ _ sigset => [sigset.length]
  | toScriptHash _ _ script sigset => [script.length, sigset.length]
  | toKey _ keyOffsets _ => [keyOffsets.length]

/-- The lengths of the lists in a transaction. -/
def TxRecord.lengths (r : TxRecord) : List ℕ :=
  [r.inputs.length, r.outputs.length, r.extra.length] ++ r.inputs.flatMap InputRecord.lengths

/-- The lengths of the lists in a block. -/
def BlockRecord.lengths (r : BlockRecord) : List ℕ := r.txHashes.length :: r.rewardTx.lengths

/-- The lengths of the lists in a package. -/
def BlockPackage.lengths (p : BlockPackage) : List ℕ :=
  p.transactions.length :: (p.block.lengths ++ p.transactions.flatMap TxRecord.lengths)

namespace Codec

variable {α : Type}

/-- A list of values without lists has one length to be written. -/
theorem fits_list_iff [Codec α] [Lawful α] {xs : List α} (h : ∀ x : α, Fits x) :
    Fits xs ↔ xs.length < 2 ^ 64 :=
  ⟨fun hfits => hfits.1, fun hlength => ⟨hlength, fun x _ => h x⟩⟩

/-- Whether reading and writing determine each other, for values whose lists have these lengths. What was
written reads back, whatever follows it, and what reads as a value begins with its written form. Different
values have different forms, none of which goes on from another one, and reading fails on the byte strings
that begin with no form. -/
structure Exact [Codec α] (lengths : α → List ℕ) : Prop where
  read_encode : ∀ x rest, Writable (lengths x) → read (encode x ++ rest) = .ok x
  begins : ∀ bytes x, read bytes = .ok x → Writable (lengths x) ∧ encode x <+: bytes
  injective : ∀ x y, Writable (lengths x) → Writable (lengths y) → encode x = encode y → x = y
  prefixFree : ∀ x y, Writable (lengths x) → Writable (lengths y) → encode x <+: encode y →
    encode x = encode y
  fails_iff : ∀ bytes,
    (∃ e, read (α := α) bytes = .error e) ↔ ¬∃ x, Writable (lengths x) ∧ encode x <+: bytes

/-- Byte strings that begin with the written form of a value read as this value. -/
theorem read_of_begins [Codec α] [Lawful α] {x : α} {bytes : Bytes} (hfits : Fits x)
    (h : encode x <+: bytes) : read bytes = .ok x := by
  obtain ⟨rest, rfl⟩ := h
  exact read_encode_append hfits rest

/-- Lawful codecs are exact. -/
theorem Lawful.exact [Codec α] [Lawful α] {lengths : α → List ℕ}
    (hfits : ∀ x : α, Fits x ↔ Writable (lengths x)) : Exact lengths := by
  have hread (x : α) (bytes : Bytes) (hx : Writable (lengths x)) (h : encode x <+: bytes) :
      read bytes = .ok x := read_of_begins ((hfits x).mpr hx) h
  have hbegins (bytes : Bytes) (x : α) (h : read bytes = .ok x) :
      Writable (lengths x) ∧ encode x <+: bytes := by
    obtain ⟨hx, rest, rfl⟩ := encode_of_read h
    exact ⟨(hfits x).mp hx, List.prefix_append _ _⟩
  -- Both forms are at the front of the longer one, which reads as one value only.
  have hunique (x y : α) (hx : Writable (lengths x)) (hy : Writable (lengths y))
      (h : encode x <+: encode y) : x = y := by
    have hsame := hread x (encode y) hx h
    rw [hread y (encode y) hy (List.prefix_refl _)] at hsame
    exact (Except.ok.inj hsame).symm
  constructor
  case read_encode => exact fun x rest hx => hread x _ hx (List.prefix_append _ _)
  case begins => exact hbegins
  case injective => exact fun x y hx hy h => hunique x y hx hy (h ▸ List.prefix_refl _)
  case prefixFree => exact fun x y hx hy h => congrArg encode (hunique x y hx hy h)
  case fails_iff =>
    intro bytes
    cases hresult : read (α := α) bytes with
    | error e =>
      refine iff_of_true ⟨e, rfl⟩ fun hsome => ?_
      obtain ⟨x, hx, hbegin⟩ := hsome
      rw [hread x bytes hx hbegin] at hresult
      cases hresult
    | ok x => exact iff_of_false (by simp) (not_not.mpr ⟨x, hbegins bytes x hresult⟩)

end Codec

open Codec (Fits)

/-- The lists in an input fit if their lengths can be written. -/
theorem InputRecord.fits_iff (x : InputRecord) : Codec.Fits x ↔ Writable x.lengths := by
  cases x with
  | gen height => exact iff_of_true trivial writable_nil
  | toScript prev prevout sigset =>
    exact (Codec.fits_list_iff fun _ => trivial).trans (by simp [lengths, Writable])
  | toScriptHash prev prevout script sigset =>
    have hlength (bytes : Bytes) : Codec.Fits bytes ↔ bytes.length < 2 ^ 64 :=
      Codec.fits_list_iff fun _ => trivial
    exact (and_congr (hlength script) (hlength sigset)).trans (by simp [lengths, Writable])
  | toKey amount keyOffsets keyImage =>
    exact (Codec.fits_list_iff fun _ => trivial).trans (by simp [lengths, Writable])

/-- The lists in a transaction fit if their lengths can be written. -/
theorem TxRecord.fits_iff (r : TxRecord) : Fits r ↔ Writable r.lengths := by
  have hinputs : Fits r.inputs ↔
      r.inputs.length < 2 ^ 64 ∧ Writable (r.inputs.flatMap InputRecord.lengths) := by
    rw [writable_flatMap]
    exact and_congr_right' (forall₂_congr fun x _ => x.fits_iff)
  have houtputs : Fits r.outputs ↔ r.outputs.length < 2 ^ 64 :=
    Codec.fits_list_iff fun _ => ⟨trivial, trivial⟩
  have hextra : Fits r.extra ↔ r.extra.length < 2 ^ 64 := Codec.fits_list_iff fun _ => trivial
  have hfields : Fits r ↔ Fits r.inputs ∧ Fits r.outputs ∧ Fits r.extra :=
    ⟨fun h => h.2.2, fun h => ⟨trivial, trivial, h⟩⟩
  rw [hfields, hinputs, houtputs, hextra, lengths, writable_append, writable_cons, writable_cons,
    writable_cons]
  simp only [writable_nil, and_true]
  tauto

/-- The lists in a block fit if their lengths can be written. -/
theorem BlockRecord.fits_iff (r : BlockRecord) : Fits r ↔ Writable r.lengths := by
  have hlisted : Fits r.txHashes ↔ r.txHashes.length < 2 ^ 64 := Codec.fits_list_iff fun _ => trivial
  have hfields : Fits r ↔ Fits r.rewardTx ∧ Fits r.txHashes :=
    ⟨fun h => h.2.2.2.2.2, fun h => ⟨trivial, trivial, trivial, trivial, trivial, h⟩⟩
  rw [hfields, r.rewardTx.fits_iff, hlisted, lengths, writable_cons, and_comm]

/-- The lists in a package fit if their lengths can be written. -/
theorem BlockPackage.fits_iff (p : BlockPackage) : Fits p ↔ Writable p.lengths := by
  have htransactions : Fits p.transactions ↔
      p.transactions.length < 2 ^ 64 ∧ Writable (p.transactions.flatMap TxRecord.lengths) := by
    rw [writable_flatMap]
    exact and_congr_right' (forall₂_congr fun r _ => r.fits_iff)
  have hfields : Fits p ↔ Fits p.block ∧ Fits p.transactions := Iff.rfl
  rw [hfields, p.block.fits_iff, htransactions, lengths, writable_cons, writable_append]
  tauto

/-- The codecs of transactions, blocks and packages are exact for records whose lists have lengths that can be
written, and those of headers and of the locations of outputs are for all records. -/
theorem Codec.exact_records :
    Exact TxRecord.lengths ∧ Exact BlockRecord.lengths ∧ Exact BlockPackage.lengths ∧
      (Exact fun _ : FileInfo => []) ∧ (Exact fun _ : BlocksInfo => []) ∧
      Exact fun _ : OutputLocation => [] := by
  have hfile (i : FileInfo) : Fits i ↔ Writable [] :=
    iff_of_true ⟨trivial, trivial, trivial⟩ writable_nil
  have hblocks (i : BlocksInfo) : Fits i ↔ Writable [] :=
    iff_of_true ⟨trivial, trivial, trivial⟩ writable_nil
  have hlocation (l : OutputLocation) : Fits l ↔ Writable [] :=
    iff_of_true ⟨trivial, trivial⟩ writable_nil
  exact ⟨Lawful.exact TxRecord.fits_iff, Lawful.exact BlockRecord.fits_iff,
    Lawful.exact BlockPackage.fits_iff, Lawful.exact hfile, Lawful.exact hblocks,
    Lawful.exact hlocation⟩

end RingDepth
