import RingDepth.Bootstrap.Contents
import RingDepth.Proofs.Bootstrap.Frame

/-!
# Records in frames

Records are put into a byte string one after the other, each with its length in front. A chunk of a file is
such a string of frames, and so is its body, whose records are the chunks. Frames are taken off the front of
what they were written before, and bytes off which frames were taken are these frames and what is left.

The chunks of a body are cut off as long as four bytes are left, so up to three bytes may be left over where
the cutting ends without a fault.
-/

namespace RingDepth

/-- Records one after the other, each with its length in front. -/
def framed (records : List Bytes) : Bytes := records.flatMap frame

/-- No records take no bytes. -/
@[simp] theorem framed_nil : framed [] = [] := rfl

/-- The first record comes first, with its length. -/
theorem framed_cons (record : Bytes) (records : List Bytes) :
    framed (record :: records) = frame record ++ framed records := List.flatMap_cons

/-- Records behind others are framed behind them. -/
theorem framed_append (front back : List Bytes) : framed (front ++ back) = framed front ++ framed back :=
  List.flatMap_append

/-- There are at least four bytes for each record. -/
theorem length_le_framed (records : List Bytes) : 4 * records.length ≤ (framed records).length := by
  induction records with
  | nil => exact Nat.le_refl 0
  | cons record records ih =>
    rw [framed_cons, List.length_append, length_frame, List.length_cons]
    omega

/-- A record is taken off the front exactly if its frame stands there. -/
theorem takeFrame_eq_ok_iff {bs record rest : Bytes} :
    takeFrame bs = .ok (record, rest) ↔ record.length < 256 ^ 4 ∧ bs = frame record ++ rest := by
  constructor
  · intro h
    rw [takeFrame] at h
    split at h
    · cases h
    · rename_i hprefix
      split at h
      · cases h
      · rename_i hrecord
        obtain ⟨rfl, rfl⟩ := Prod.mk.inj (Except.ok.inj h)
        have hfour : (bs.take 4).length = 4 := by
          rw [List.length_take]
          omega
        have hlength : ((bs.drop 4).take (Bytes.ofLittleEndian (bs.take 4))).length =
            Bytes.ofLittleEndian (bs.take 4) := by
          rw [List.length_take]
          omega
        have hwritten := Bytes.littleEndian_ofLittleEndian (bs.take 4)
        rw [hfour] at hwritten
        refine ⟨?_, ?_⟩
        · have hlt := Bytes.ofLittleEndian_lt (bs.take 4)
          rwa [hfour, ← hlength] at hlt
        · rw [frame, hlength, hwritten, List.append_assoc, List.take_append_drop, List.take_append_drop]
  · rintro ⟨hrecord, rfl⟩
    exact takeFrame_frame_append hrecord rest

/-- A frame is the beginning of no shorter byte string. -/
theorem frame_append_ne_nil (record rest : Bytes) : frame record ++ rest ≠ [] := by
  rw [← List.length_pos_iff, List.length_append, length_frame]
  omega

namespace Contents

variable {α : Type} {decode : Bytes → Except BootstrapError α}

/-- The frames of a chunk give what their records decode to. -/
theorem ofFrames_framed {records : List Bytes} {items : List α} {fuel : ℕ}
    (hdecode : List.Forall₂ (fun record item => decode record = .ok item) records items)
    (hlength : ∀ record ∈ records, record.length < 256 ^ 4) (hfuel : records.length ≤ fuel) :
    ofFrames decode fuel (framed records) = { items } := by
  induction hdecode generalizing fuel with
  | nil => cases fuel <;> rfl
  | @cons record item records items hrecord _ ih =>
    obtain ⟨hfirst, hothers⟩ := List.forall_mem_cons.mp hlength
    rw [List.length_cons] at hfuel
    obtain ⟨fuel, rfl⟩ := Nat.exists_eq_add_of_le' hfuel
    rw [framed_cons, ← Nat.add_assoc, ofFrames.eq_3 _ _ _ (frame_append_ne_nil _ _),
      takeFrame_frame_append hfirst]
    simp only [hrecord, ih hothers (Nat.le_add_left _ _)]

/-- The bytes of a chunk that is read without a fault are the frames of what was read. -/
theorem exists_framed_of_ofFrames {fuel : ℕ} {chunk : Bytes} (hfuel : chunk.length ≤ fuel)
    (h : (ofFrames decode fuel chunk).failure = none) :
    ∃ records, chunk = framed records ∧ (∀ record ∈ records, record.length < 256 ^ 4) ∧
      List.Forall₂ (fun record item => decode record = .ok item) records
        (ofFrames decode fuel chunk).items := by
  induction fuel generalizing chunk with
  | zero =>
    obtain rfl := List.length_eq_zero_iff.mp (Nat.le_zero.mp hfuel)
    exact ⟨[], rfl, List.forall_mem_nil _, .nil⟩
  | succ fuel ih =>
    by_cases hempty : chunk = []
    · subst hempty
      exact ⟨[], rfl, List.forall_mem_nil _, .nil⟩
    · rw [ofFrames.eq_3 _ _ _ hempty] at h ⊢
      cases htake : takeFrame chunk with
      | error e => simp [htake] at h
      | ok taken =>
        obtain ⟨record, rest⟩ := taken
        obtain ⟨hrecord, rfl⟩ := takeFrame_eq_ok_iff.mp htake
        cases hdecode : decode record with
        | error e => simp [htake, hdecode] at h
        | ok item =>
          simp only [htake, hdecode] at h ⊢
          rw [List.length_append, length_frame] at hfuel
          obtain ⟨records, rfl, hlength, hitems⟩ := ih (by omega) h
          exact ⟨record :: records, framed_cons _ _, List.forall_mem_cons.mpr ⟨hrecord, hlength⟩,
            .cons hdecode hitems⟩

end Contents

/-- The greatest size of a chunk is a length of four bytes. -/
theorem maxChunkSize_lt : maxChunkSize < 256 ^ 4 := by decide

/-- A record that stands among others fits its frame if all of them together do not go beyond the size of a
chunk. -/
theorem length_lt_of_mem {records : List Bytes} (hsize : (framed records).length ≤ maxChunkSize)
    {record : Bytes} (hrecord : record ∈ records) : record.length < 256 ^ 4 := by
  obtain ⟨front, back, rfl⟩ := List.append_of_mem hrecord
  rw [framed_append, framed_cons, List.length_append, List.length_append, length_frame] at hsize
  have hmax := maxChunkSize_lt
  omega

/-- Frames are what is read of them, if less than a frame follows: other frames that begin with the same bytes
are these frames and some more. -/
theorem exists_append_of_framed_append_eq {front records : List Bytes} {tail rest : Bytes}
    (hfront : ∀ record ∈ front, record.length < 256 ^ 4)
    (hrecords : ∀ record ∈ records, record.length < 256 ^ 4) (hrest : rest.length < 4)
    (h : framed front ++ tail = framed records ++ rest) :
    ∃ more, records = front ++ more ∧ tail = framed more ++ rest := by
  induction front generalizing records with
  | nil => exact ⟨records, rfl, h⟩
  | cons record front ih =>
    obtain ⟨hrecord, hfront⟩ := List.forall_mem_cons.mp hfront
    cases records with
    | nil =>
      have hlength := congrArg List.length h
      rw [framed_cons, List.length_append, List.length_append, length_frame, framed_nil,
        List.nil_append] at hlength
      omega
    | cons other records =>
      have hother := hrecords other List.mem_cons_self
      have htake := congrArg takeFrame h
      rw [framed_cons, framed_cons, List.append_assoc, List.append_assoc, takeFrame_frame_append hrecord,
        takeFrame_frame_append hother] at htake
      obtain ⟨rfl, hothers⟩ := Prod.mk.inj (Except.ok.inj htake)
      obtain ⟨more, rfl, htail⟩ := ih hfront (List.forall_mem_cons.mp hrecords).2 hothers
      exact ⟨more, rfl, htail⟩

section Cutting

variable {chunks : List Bytes} {fuel index : ℕ}

/-- No chunk is cut off less than four bytes. -/
theorem cutChunks_of_length_lt {bs : Bytes} (h : bs.length < 4) : cutChunks fuel index bs = ([], none) := by
  cases fuel with
  | zero => rfl
  | succ fuel => exact if_pos h

/-- A framed chunk that may be read is cut off what follows it. -/
theorem cutChunks_frame_append {chunk : Bytes} (hsize : chunk.length ≤ maxChunkSize)
    (fuel index : ℕ) (rest : Bytes) :
    cutChunks (fuel + 1) index (frame chunk ++ rest) =
      (chunk :: (cutChunks fuel (index + 1) rest).1, (cutChunks fuel (index + 1) rest).2) := by
  have hlength : chunk.length < 256 ^ 4 := Nat.lt_of_le_of_lt hsize maxChunkSize_lt
  have hprefix : ¬(frame chunk ++ rest).length < 4 := by
    rw [List.length_append, length_frame]
    omega
  have hrest : ¬(chunk ++ rest).length < chunk.length := by
    rw [List.length_append]
    omega
  rw [cutChunks]
  simp only [ofLittleEndian_take_frame hlength, drop_frame, if_neg hprefix, if_neg (Nat.not_lt.mpr hsize),
    if_neg hrest, List.take_left, List.drop_left]

/-- A body at whose front the cutting does not fail has less than four bytes, or begins with a framed chunk
that may be read. -/
theorem exists_frame_of_cutChunks {bs : Bytes} (h : (cutChunks (fuel + 1) index bs).2 = none) :
    bs.length < 4 ∨ ∃ chunk rest, chunk.length ≤ maxChunkSize ∧ bs = frame chunk ++ rest := by
  rw [cutChunks] at h
  dsimp only at h
  split at h
  · rename_i hshort
    exact .inl hshort
  · rename_i hlong
    split at h
    · cases h
    · rename_i hsize
      split at h
      · cases h
      · rename_i hrest
        have htake : takeFrame bs = .ok _ := (if_neg hlong).trans (if_neg hrest)
        refine .inr ⟨_, _, ?_, (takeFrame_eq_ok_iff.mp htake).2⟩
        exact Nat.le_trans (List.length_take_le _ _) (Nat.not_lt.mp hsize)

/-- Framed chunks that may be read are cut off what follows them, which is cut as if it stood alone. -/
theorem cutChunks_framed_append (hsize : ∀ chunk ∈ chunks, chunk.length ≤ maxChunkSize)
    (fuel index : ℕ) (tail : Bytes) :
    cutChunks (chunks.length + fuel) index (framed chunks ++ tail) =
      (chunks ++ (cutChunks fuel (index + chunks.length) tail).1,
        (cutChunks fuel (index + chunks.length) tail).2) := by
  induction chunks generalizing index with
  | nil =>
    rw [List.length_nil, Nat.zero_add]
    rfl
  | cons chunk chunks ih =>
    obtain ⟨hchunk, hchunks⟩ := List.forall_mem_cons.mp hsize
    rw [framed_cons, List.append_assoc, List.length_cons, Nat.add_right_comm,
      cutChunks_frame_append hchunk, ih hchunks, Nat.add_right_comm]
    rfl

/-- If less than four bytes follow them, then nothing else is cut off. -/
theorem cutChunks_length (hsize : ∀ chunk ∈ chunks, chunk.length ≤ maxChunkSize) {leftover : Bytes}
    (hleftover : leftover.length < 4) (index : ℕ) :
    cutChunks (framed chunks ++ leftover).length index (framed chunks ++ leftover) = (chunks, none) := by
  have hframes := length_le_framed chunks
  obtain ⟨fuel, hfuel⟩ : ∃ fuel, (framed chunks ++ leftover).length = chunks.length + fuel :=
    Nat.exists_eq_add_of_le (by rw [List.length_append]; omega)
  rw [hfuel, cutChunks_framed_append hsize, cutChunks_of_length_lt hleftover, List.append_nil]

/-- A body that is cut without a fault consists of framed chunks, and of less than four bytes behind them. -/
theorem eq_framed_append_of_cutChunks {bs : Bytes} (hfuel : bs.length ≤ fuel)
    (h : cutChunks fuel index bs = (chunks, none)) :
    ∃ leftover, bs = framed chunks ++ leftover ∧ leftover.length < 4 ∧
      ∀ chunk ∈ chunks, chunk.length ≤ maxChunkSize := by
  induction fuel generalizing index bs chunks with
  | zero =>
    obtain rfl := List.length_eq_zero_iff.mp (Nat.le_zero.mp hfuel)
    obtain ⟨rfl, -⟩ := Prod.mk.inj h
    exact ⟨[], rfl, by decide, List.forall_mem_nil _⟩
  | succ fuel ih =>
    obtain hshort | ⟨chunk, rest, hchunk, rfl⟩ := exists_frame_of_cutChunks (congrArg Prod.snd h)
    · rw [cutChunks_of_length_lt hshort] at h
      obtain ⟨rfl, -⟩ := Prod.mk.inj h
      exact ⟨bs, rfl, hshort, List.forall_mem_nil _⟩
    · rw [cutChunks_frame_append hchunk] at h
      obtain ⟨rfl, hfailure⟩ := Prod.mk.inj h
      rw [List.length_append, length_frame] at hfuel
      obtain ⟨leftover, hrest, hleftover, hchunks⟩ := ih (by omega) (Prod.ext rfl hfailure)
      refine ⟨leftover, ?_, hleftover, List.forall_mem_cons.mpr ⟨hchunk, hchunks⟩⟩
      rw [framed_cons, List.append_assoc, ← hrest]

end Cutting

namespace Contents

variable {α : Type} {decode : Bytes → Except BootstrapError α}

/-- A chunk gives items without a fault exactly if it consists of frames whose records decode to them. -/
theorem ofChunk_eq_iff {chunk : Bytes} {items : List α} :
    ofChunk decode chunk = { items } ↔ ∃ records, chunk = framed records ∧
      (∀ record ∈ records, record.length < 256 ^ 4) ∧
      List.Forall₂ (fun record item => decode record = .ok item) records items := by
  constructor
  · intro h
    have hfailure : (ofFrames decode chunk.length chunk).failure = none :=
      congrArg Contents.failure h
    have hitems : (ofFrames decode chunk.length chunk).items = items := congrArg Contents.items h
    rw [← hitems]
    exact exists_framed_of_ofFrames (Nat.le_refl _) hfailure
  · rintro ⟨records, rfl, hlength, hdecode⟩
    have hfuel := length_le_framed records
    exact ofFrames_framed hdecode hlength (by omega)

/-- A chunk in which there is no fault gives its items. -/
theorem ofChunk_of_failure_eq_none {chunk : Bytes} (h : (ofChunk decode chunk).failure = none) :
    ofChunk decode chunk = { items := (ofChunk decode chunk).items } :=
  ofChunk_eq_iff.mpr (exists_framed_of_ofFrames (Nat.le_refl _) h)

/-- Chunks that give items without a fault give all of them in order, and then what comes behind them. -/
theorem ofChunks_eq_of_forall₂ {chunks : List Bytes} {groups : List (List α)}
    (h : List.Forall₂ (fun chunk items => ofChunk decode chunk = { items }) chunks groups)
    (failure : Option BootstrapError) :
    ofChunks decode failure chunks = { items := groups.flatten, failure, chunks := chunks.length } := by
  induction h with
  | nil => rfl
  | cons hchunk _ ih =>
    rw [ofChunks, hchunk, ih]
    rfl

/-- If nothing comes behind them, then there is no fault. -/
theorem ofChunks_of_forall₂ {chunks : List Bytes} {groups : List (List α)}
    (h : List.Forall₂ (fun chunk items => ofChunk decode chunk = { items }) chunks groups) :
    ofChunks decode none chunks = { items := groups.flatten, chunks := chunks.length } :=
  ofChunks_eq_of_forall₂ h none

/-- Chunks that give items without a fault, before whatever follows them, give the first items. -/
theorem items_ofChunks_append {front : List Bytes} {groups : List (List α)}
    (h : List.Forall₂ (fun chunk items => ofChunk decode chunk = { items }) front groups)
    (failure : Option BootstrapError) (back : List Bytes) :
    groups.flatten <+: (ofChunks decode failure (front ++ back)).items := by
  induction h with
  | nil => exact List.nil_prefix
  | cons hchunk _ ih =>
    rw [List.cons_append, ofChunks, hchunk, List.flatten_cons]
    exact (List.prefix_append_right_inj _).mpr ih

/-- If there is no fault in chunks nor behind them, then each chunk gives items without a fault. -/
theorem exists_forall₂_of_ofChunks {failure : Option BootstrapError} {chunks : List Bytes}
    (h : (ofChunks decode failure chunks).failure = none) :
    failure = none ∧
      ∃ groups, List.Forall₂ (fun chunk items => ofChunk decode chunk = { items }) chunks groups := by
  induction chunks with
  | nil => exact ⟨h, [], .nil⟩
  | cons chunk chunks ih =>
    rw [ofChunks] at h
    dsimp only at h
    split at h
    · cases h
    · rename_i hnone
      obtain ⟨hfailure, groups, hgroups⟩ := ih h
      exact ⟨hfailure, _, .cons (ofChunk_of_failure_eq_none hnone) hgroups⟩

end Contents

end RingDepth
