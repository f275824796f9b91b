import RingDepth.Bootstrap.Frame
import RingDepth.Proofs.Codec.Record

/-!
# Frames and headers are read back

A framed record is taken off the front of what it was written before, whatever follows it, if its length
fits four bytes. A header consists of two framed records and is read back in the same way, with all that
follows it left.
-/

namespace RingDepth

instance : Codec.Lawful FileInfo :=
  Codec.Lawful.ofFields (fun i => (i.majorVersion, i.minorVersion, i.headerSize))
    (fun (majorVersion, minorVersion, headerSize) => ⟨majorVersion, minorVersion, headerSize⟩) rfl
    (fun _ => rfl) fun _ => rfl

instance : Codec.Lawful BlocksInfo :=
  Codec.Lawful.ofFields (fun i => (i.first, i.last, i.lastPosition))
    (fun (first, last, lastPosition) => ⟨first, last, lastPosition⟩) rfl
    (fun _ => rfl) fun _ => rfl

instance : Codec.Lawful BlockPackage :=
  Codec.Lawful.ofFields (fun p => (p.block, p.transactions))
    (fun (block, transactions) => ⟨block, transactions⟩) rfl
    (fun _ => rfl) fun _ => rfl

/-- A frame is four bytes longer than its record. -/
@[simp] theorem length_frame (record : Bytes) : (frame record).length = 4 + record.length := by
  rw [frame, List.length_append, Bytes.length_littleEndian]

/-- The length of a frame is read off its first four bytes. -/
theorem ofLittleEndian_take_frame {record : Bytes} (h : record.length < 256 ^ 4) (rest : Bytes) :
    Bytes.ofLittleEndian ((frame record ++ rest).take 4) = record.length := by
  have hlength : (Bytes.littleEndian 4 record.length).length = 4 := Bytes.length_littleEndian _ _
  rw [frame, List.append_assoc, List.take_append_of_le_length (Nat.le_of_eq hlength.symm),
    List.take_of_length_le (Nat.le_of_eq hlength), Bytes.ofLittleEndian_littleEndian,
    Nat.mod_eq_of_lt h]

/-- Behind the length of a frame stands its record. -/
theorem drop_frame (record rest : Bytes) : (frame record ++ rest).drop 4 = record ++ rest := by
  rw [frame, List.append_assoc, List.drop_append_of_le_length (by simp), List.drop_of_length_le (by simp),
    List.nil_append]

/-- A framed record is taken off the front. -/
theorem takeFrame_frame_append {record : Bytes} (h : record.length < 256 ^ 4) (rest : Bytes) :
    takeFrame (frame record ++ rest) = .ok (record, rest) := by
  have hprefix : ¬(frame record ++ rest).length < 4 := by
    rw [List.length_append, length_frame]
    omega
  have hrecord : ¬(record ++ rest).length < record.length := by
    rw [List.length_append]
    omega
  simp only [takeFrame, ofLittleEndian_take_frame h, drop_frame, if_neg hprefix, if_neg hrecord,
    List.take_left, List.drop_left]

/-- A record that was written is read. -/
theorem readRecord_encode {α : Type} [Codec α] [Codec.Lawful α] {x : α} (h : Codec.Fits x) :
    readRecord α (Codec.encode x) = .ok x := by
  rw [readRecord, Codec.read_encode h]
  rfl

namespace BootstrapHeader

/-- The framed records of a header. -/
def records (h : BootstrapHeader) : Bytes :=
  frame (Codec.encode h.file) ++ frame (Codec.encode h.blocks)

/-- The framed records of a header with the zeros behind them. -/
def padded (h : BootstrapHeader) : Bytes :=
  h.records ++ List.replicate (size - h.records.length) 0

/-- A header is written as the magic number and the padded records. -/
theorem encode_eq (h : BootstrapHeader) : h.encode = Codec.encode magic ++ h.padded := by
  rw [encode, padded, ← List.append_assoc]
  rfl

/-- The padded records have the size of a header. -/
theorem length_padded (h : BootstrapHeader) : h.padded.length = size := by
  have hrecords : h.records.length = 44 := by simp [records, Codec.encode]
  rw [padded, List.length_append, List.length_replicate, hrecords]
  rfl

/-- The records of a header are read back, if they state its size. -/
theorem ofRecords_padded (h : BootstrapHeader) (hsize : h.file.headerSize.toNat = size) :
    ofRecords h.padded = .ok h := by
  have hfile : (Codec.encode h.file).length < 256 ^ 4 := by simp [Codec.encode]
  have hblocks : (Codec.encode h.blocks).length < 256 ^ 4 := by simp [Codec.encode]
  have hfitsFile : Codec.Fits h.file := ⟨trivial, trivial, trivial⟩
  have hfitsBlocks : Codec.Fits h.blocks := ⟨trivial, trivial, trivial⟩
  rw [ofRecords, padded, records, List.append_assoc, takeFrame_frame_append hfile]
  simp only [bind, Except.bind, readRecord_encode hfitsFile, takeFrame_frame_append hblocks,
    readRecord_encode hfitsBlocks, hsize, ne_eq, not_true_eq_false, if_false]
  rfl

/-- A header is read back, with what follows it. -/
theorem read_encode_append (h : BootstrapHeader) (hsize : h.file.headerSize.toNat = size)
    (body : Bytes) : read (h.encode ++ body) = .ok (h, body) := by
  have hlength : (Codec.encode magic).length = 4 := Bytes.length_littleEndian _ _
  have htake : (Codec.encode magic ++ (h.padded ++ body)).take 4 = Codec.encode magic := by
    rw [← hlength, List.take_left]
  have hdrop : (Codec.encode magic ++ (h.padded ++ body)).drop 4 = h.padded ++ body := by
    rw [← hlength, List.drop_left]
  have hmagic : UInt32.ofNat (Bytes.ofLittleEndian (Codec.encode magic)) = magic := by decide
  have hstart : ¬(Codec.encode magic ++ (h.padded ++ body)).length < 4 := by
    rw [List.length_append, hlength]
    omega
  have hheader : ¬(h.padded ++ body).length < size := by
    rw [List.length_append, length_padded]
    omega
  rw [encode_eq, List.append_assoc]
  simp only [read, htake, hdrop, hmagic, if_neg hstart, if_neg hheader, ne_eq, not_true_eq_false,
    if_false]
  rw [← h.length_padded, List.take_left, List.drop_left, h.ofRecords_padded hsize]
  rfl

end BootstrapHeader

end RingDepth
