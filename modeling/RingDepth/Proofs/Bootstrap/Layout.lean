import RingDepth.Proofs.Bootstrap.Framing
import RingDepth.Proofs.Ledger.Append

/-!
# How a file is laid out

A file whose frames are counted consists of its header, of framed chunks that consist of frames, and of less
than four bytes that no chunk begins with. These bytes are not looked at, so a file may be read well although
it does not end behind its last chunk.
-/

namespace RingDepth

namespace BootstrapHeader

/-- A header is read exactly if the magic number and as many bytes as a header has are there, and its records
are read. -/
theorem read_eq_ok_iff {bs rest : Bytes} {header : BootstrapHeader} :
    read bs = .ok (header, rest) ↔ 4 ≤ bs.length ∧
      UInt32.ofNat (Bytes.ofLittleEndian (bs.take 4)) = magic ∧ size ≤ (bs.drop 4).length ∧
      ofRecords ((bs.drop 4).take size) = .ok header ∧ (bs.drop 4).drop size = rest := by
  rw [read, Ledger.throwIf_eq_ok_iff, Nat.not_lt]
  refine and_congr_right' ?_
  dsimp only
  rw [Ledger.throwIf_eq_ok_iff, not_ne_iff]
  refine and_congr_right' ?_
  rw [Ledger.throwIf_eq_ok_iff, Nat.not_lt, bind_eq_ok_iff]
  refine and_congr_right' ⟨?_, ?_⟩
  · rintro ⟨found, hfound, heq⟩
    obtain ⟨rfl, hrest⟩ := Prod.mk.inj (Except.ok.inj heq)
    exact ⟨hfound, hrest⟩
  · rintro ⟨hfound, rfl⟩
    exact ⟨header, hfound, rfl⟩

/-- Bytes behind a header are left with those that were there. -/
theorem read_append {bs rest : Bytes} {header : BootstrapHeader} (h : read bs = .ok (header, rest))
    (more : Bytes) : read (bs ++ more) = .ok (header, rest ++ more) := by
  obtain ⟨hstart, hmagic, hsize, hrecords, rfl⟩ := read_eq_ok_iff.mp h
  have hdrop : (bs ++ more).drop 4 = bs.drop 4 ++ more := List.drop_append_of_le_length hstart
  rw [read_eq_ok_iff, hdrop, List.take_append_of_le_length hstart, List.take_append_of_le_length hsize,
    List.drop_append_of_le_length hsize, List.length_append, List.length_append]
  exact ⟨Nat.le_add_right_of_le hstart, hmagic, Nat.le_add_right_of_le hsize, hrecords, rfl⟩

end BootstrapHeader

namespace BootstrapFile

/-- The records in the frames of a file. -/
def frames (f : BootstrapFile) : Except BootstrapError (List Bytes) := (f.contents Except.ok).toExcept

/-- The bytes of a file behind the chunks that are cut off its body. -/
def leftover (f : BootstrapFile) : Bytes :=
  f.body.drop (framed (cutChunks f.body.length 0 f.body).1).length

/-- A file with some bytes behind it. -/
def extend (f : BootstrapFile) (more : Bytes) : BootstrapFile := { f with body := f.body ++ more }

/-- Bytes behind a file are bytes behind its body. -/
theorem read_append {bs : Bytes} {f : BootstrapFile} (h : read bs = .ok f) (more : Bytes) :
    read (bs ++ more) = .ok (f.extend more) := by
  obtain ⟨⟨header, body⟩, hheader, rfl⟩ := map_eq_ok_iff.mp h
  rw [read, BootstrapHeader.read_append hheader]
  rfl

/-- The frames of a file are counted, from the height that its header names. -/
theorem countBlocks_eq_ok_iff {bs : Bytes} {n : ℕ} {first : UInt64} :
    countBlocks bs = .ok (n, first) ↔ ∃ f records, read bs = .ok f ∧ f.header.blocks.first = first ∧
      f.frames = .ok records ∧ records.length = n := by
  constructor
  · intro h
    obtain ⟨f, hread, h⟩ := bind_eq_ok_iff.mp h
    obtain ⟨count, hcount, heq⟩ := bind_eq_ok_iff.mp h
    obtain ⟨rfl, rfl⟩ := Prod.mk.inj (Except.ok.inj heq)
    obtain ⟨records, hrecords, rfl⟩ := map_eq_ok_iff.mp hcount
    exact ⟨f, records, hread, rfl, hrecords, rfl⟩
  · rintro ⟨f, records, hread, rfl, hrecords, rfl⟩
    exact bind_eq_ok_iff.mpr ⟨f, hread, bind_eq_ok_iff.mpr
      ⟨records.length, map_eq_ok_iff.mpr ⟨records, hrecords, rfl⟩, rfl⟩⟩

/-- Whether a file consists of chunks with these records and of some bytes behind them, of which there are too
few for another chunk. -/
structure LaidOut (f : BootstrapFile) (groups : List (List Bytes)) (leftover : Bytes) : Prop where
  body : f.body = framed (groups.map framed) ++ leftover
  short : leftover.length < 4
  size : ∀ records ∈ groups, (framed records).length ≤ maxChunkSize

end BootstrapFile

/-- The frames of a chunk that may be read are read back. -/
theorem Contents.ofChunk_framed {records : List Bytes} (hsize : (framed records).length ≤ maxChunkSize) :
    ofChunk Except.ok (framed records) = { items := records } :=
  ofChunk_eq_iff.mpr ⟨records, rfl, fun _ => length_lt_of_mem hsize, List.forall₂_same.mpr fun _ _ => rfl⟩

/-- So are those of all chunks. -/
theorem Contents.forall₂_ofChunk_framed {groups : List (List Bytes)}
    (hsize : ∀ records ∈ groups, (framed records).length ≤ maxChunkSize) :
    List.Forall₂ (fun chunk items => ofChunk Except.ok chunk = { items }) (groups.map framed) groups := by
  rw [List.forall₂_map_left_iff, List.forall₂_same]
  exact fun records hrecords => ofChunk_framed (hsize records hrecords)

namespace BootstrapFile

namespace LaidOut

variable {f : BootstrapFile} {groups : List (List Bytes)} {leftover : Bytes}

/-- The chunks are not greater than the greatest that is read. -/
theorem size_map (h : f.LaidOut groups leftover) : ∀ chunk ∈ groups.map framed, chunk.length ≤ maxChunkSize :=
  List.forall_mem_map.mpr h.size

/-- There are fewer chunks than bytes. -/
theorem length_le (h : f.LaidOut groups leftover) : (groups.map framed).length ≤ f.body.length := by
  have hchunks := length_le_framed (groups.map framed)
  rw [h.body, List.length_append]
  omega

/-- The chunks are cut off whatever is put behind the file. -/
theorem exists_cut_extend (h : f.LaidOut groups leftover) (more : Bytes) :
    ∃ chunks failure, cutChunks (f.extend more).body.length 0 (f.extend more).body =
      (groups.map framed ++ chunks, failure) := by
  obtain ⟨fuel, hfuel⟩ : ∃ fuel, (f.extend more).body.length = (groups.map framed).length + fuel :=
    Nat.exists_eq_add_of_le (Nat.le_trans h.length_le (by simp [extend]))
  rw [hfuel, extend, h.body, List.append_assoc, cutChunks_framed_append h.size_map]
  exact ⟨_, _, rfl⟩

/-- Without anything behind the file no others are cut off. -/
theorem cut (h : f.LaidOut groups leftover) :
    cutChunks f.body.length 0 f.body = (groups.map framed, none) := by
  rw [h.body]
  exact cutChunks_length h.size_map h.short 0

/-- The bytes behind the chunks are left over. -/
theorem leftover_eq (h : f.LaidOut groups leftover) : f.leftover = leftover := by
  rw [BootstrapFile.leftover, h.cut, h.body, List.drop_left]

/-- The frames of the file are those of its chunks. -/
theorem frames_eq (h : f.LaidOut groups leftover) : f.frames = .ok groups.flatten := by
  rw [frames, contents, h.cut]
  dsimp only
  rw [Contents.ofChunks_of_forall₂ (Contents.forall₂_ofChunk_framed h.size)]
  rfl

/-- Whatever is put behind the file, its frames are the first that are read. -/
theorem frames_prefix (h : f.LaidOut groups leftover) (more : Bytes) :
    groups.flatten <+: ((f.extend more).contents Except.ok).items := by
  obtain ⟨chunks, failure, hcut⟩ := h.exists_cut_extend more
  rw [contents, hcut]
  exact Contents.items_ofChunks_append (Contents.forall₂_ofChunk_framed h.size) failure chunks

/-- If nothing is left over, then the file may go on with more chunks. -/
theorem extend_framed (h : f.LaidOut groups []) {more : List (List Bytes)}
    (hsize : ∀ records ∈ more, (framed records).length ≤ maxChunkSize) :
    (f.extend (framed (more.map framed))).LaidOut (groups ++ more) [] where
  body := by
    rw [extend, h.body, List.append_nil, List.append_nil, List.map_append, framed_append]
  short := by decide
  size := List.forall_mem_append.mpr ⟨h.size, hsize⟩

end LaidOut

/-- The frames of a file are found exactly if it is laid out with them. -/
theorem frames_eq_ok_iff {f : BootstrapFile} {records : List Bytes} :
    f.frames = .ok records ↔ ∃ groups, f.LaidOut groups f.leftover ∧ groups.flatten = records := by
  constructor
  · intro h
    cases hcut : cutChunks f.body.length 0 f.body with
    | mk chunks failure =>
      have hread : (Contents.ofChunks Except.ok failure chunks).toExcept = .ok records := by
        rw [← h, frames, contents, hcut]
      have hnone : (Contents.ofChunks Except.ok failure chunks).failure = none := by
        rw [Contents.toExcept] at hread
        split at hread
        · cases hread
        · assumption
      obtain ⟨rfl, groups, hgroups⟩ := Contents.exists_forall₂_of_ofChunks hnone
      obtain ⟨leftover, hbody, hshort, hsize⟩ := eq_framed_append_of_cutChunks (Nat.le_refl _) hcut
      have hchunks : chunks = groups.map framed := by
        rw [← List.forall₂_eq_eq_eq, List.forall₂_map_right_iff]
        refine hgroups.imp fun chunk items hchunk => ?_
        obtain ⟨written, rfl, -, hitems⟩ := Contents.ofChunk_eq_iff.mp hchunk
        have hsame : List.Forall₂ (· = ·) written items := hitems.imp fun _ _ => Except.ok.inj
        rw [List.forall₂_eq_eq_eq] at hsame
        rw [hsame]
      subst hchunks
      have hlaid : f.LaidOut groups leftover := ⟨hbody, hshort, List.forall_mem_map.mp hsize⟩
      refine ⟨groups, hlaid.leftover_eq.symm ▸ hlaid, ?_⟩
      exact Except.ok.inj (hlaid.frames_eq.symm.trans h)
  · rintro ⟨groups, hlaid, rfl⟩
    exact hlaid.frames_eq

end BootstrapFile

end RingDepth
