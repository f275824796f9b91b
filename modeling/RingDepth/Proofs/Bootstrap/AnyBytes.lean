import RingDepth.Proofs.Bootstrap.Cursor
import RingDepth.Proofs.Bootstrap.Layout

/-!
# Reading any bytes

A file may hold any bytes, and the lengths in it may say anything. Reading still comes to an end, and looks at no
byte that is not there. Records are taken as slices, which are given only between positions that lie within the
bytes. A position never passes the end of its chunk, and each frame and each chunk that is taken leaves less of the
file. So there are finitely many answers: some packages, and then the end or one fault, after which nothing more is
given.

Counting takes the same frames and does not look into them. If it succeeds, then the packages are those of all
frames, or those of the frames before the first one that does not decode.
-/

namespace RingDepth

/-- The bytes between two positions, if both lie within them. -/
def Bytes.slice? (bs : Bytes) (start stop : ℕ) : Option Bytes :=
  if start ≤ stop ∧ stop ≤ bs.length then some ((bs.drop start).take (stop - start)) else none

/-- Takes the framed record at a position, and gives the position behind it. -/
def takeAt (bs : Bytes) (position : ℕ) : Except BootstrapError (Bytes × ℕ) :=
  match Bytes.slice? bs position (position + 4) with
  | none => .error (.truncated .frameLength)
  | some length =>
    let stop := position + 4 + Bytes.ofLittleEndian length
    match Bytes.slice? bs (position + 4) stop with
    | none => .error (.truncated .frame)
    | some record => .ok (record, stop)

/-- A slice that is given lies within the bytes, and is as long as its positions are apart. -/
theorem Bytes.length_of_slice? {bs taken : Bytes} {start stop : ℕ}
    (h : Bytes.slice? bs start stop = some taken) : start + taken.length = stop ∧ stop ≤ bs.length := by
  rw [slice?] at h
  split_ifs at h with hwithin
  cases h
  rw [List.length_take, List.length_drop]
  omega

/-- Nothing is given beyond the end of the bytes. -/
theorem Bytes.slice?_of_lt {bs : Bytes} {start stop : ℕ} (h : bs.length < stop) : Bytes.slice? bs start stop = none :=
  if_neg fun hwithin => Nat.not_lt.mpr hwithin.2 h

/-- Between positions within the bytes there is a slice. -/
theorem Bytes.slice?_add {bs : Bytes} {start size : ℕ} (h : start + size ≤ bs.length) :
    Bytes.slice? bs start (start + size) = some ((bs.drop start).take size) := by
  rw [slice?, if_pos ⟨Nat.le_add_right _ _, h⟩, Nat.add_sub_cancel_left]

/-- To take a record at a position is to take it off what stands behind the position. -/
theorem takeFrame_drop {bs : Bytes} {position : ℕ} (h : position ≤ bs.length) :
    takeFrame (bs.drop position) = (takeAt bs position).map fun (record, stop) => (record, bs.drop stop) := by
  rw [takeFrame, takeAt]
  dsimp only
  rw [List.drop_drop, List.length_drop, List.length_drop]
  by_cases hshort : bs.length - position < 4
  · rw [if_pos hshort, Bytes.slice?_of_lt (by omega)]
    rfl
  · rw [if_neg hshort, Bytes.slice?_add (by omega)]
    dsimp only
    by_cases hcut : bs.length - (position + 4) < Bytes.ofLittleEndian ((bs.drop position).take 4)
    · rw [if_pos hcut, Bytes.slice?_of_lt (by omega)]
      rfl
    · rw [if_neg hcut, Bytes.slice?_add (by omega), List.drop_drop]
      rfl

/-- The record that is taken at a position is a slice, with its length in front of it. -/
theorem slice?_of_takeAt {bs record : Bytes} {position stop : ℕ} (h : takeAt bs position = .ok (record, stop)) :
    Bytes.slice? bs (position + 4) stop = some record := by
  rw [takeAt] at h
  split at h
  · cases h
  · dsimp only at h
    split at h
    · cases h
    · rename_i hslice
      obtain ⟨rfl, rfl⟩ := Prod.mk.inj (Except.ok.inj h)
      exact hslice

/-- Reads the records of a header at their positions. -/
def BootstrapHeader.ofSlices (header : Bytes) : Except BootstrapError BootstrapHeader := do
  let (record, position) ← takeAt header 0
  let file ← readRecord FileInfo record
  let (record, _) ← takeAt header position
  let blocks ← readRecord BlocksInfo record
  if file.headerSize.toNat ≠ size then
    throw (.headerSize file.headerSize)
  return { file, blocks }

/-- They are those that are taken off its front. -/
theorem BootstrapHeader.ofRecords_eq_ofSlices (header : Bytes) : ofRecords header = ofSlices header := by
  have hfirst := takeFrame_drop (Nat.zero_le header.length)
  rw [List.drop_zero] at hfirst
  rw [ofRecords, ofSlices, hfirst]
  cases htake : takeAt header 0 with
  | error e => rfl
  | ok taken =>
    obtain ⟨record, position⟩ := taken
    have hposition := (Bytes.length_of_slice? (slice?_of_takeAt htake)).2
    change (readRecord FileInfo record >>= fun file => takeFrame (header.drop position) >>= _) = _
    rw [takeFrame_drop hposition]
    change _ = (readRecord FileInfo record >>= fun file => takeAt header position >>= _)
    cases readRecord FileInfo record with
    | error e => rfl
    | ok file => cases takeAt header position <;> rfl

namespace Cursor

variable {α : Type} {decode : Bytes → Except BootstrapError α} {f : BootstrapFile} {s s' last : Cursor}
  {record : Bytes}

/-- A frame in the chunk is taken at the position of the cursor. -/
theorem nextFrame_of_lt (h : s.position < s.chunk.length) :
    s.nextFrame =
      match takeAt s.chunk s.position with
      | .error e => (.error e, s)
      | .ok (record, stop) => (.ok (some record), { s with position := stop }) := by
  rw [nextFrame, if_pos h, takeFrame_drop (Nat.le_of_lt h)]
  cases htake : takeAt s.chunk s.position with
  | error e => rfl
  | ok taken =>
    obtain ⟨record, stop⟩ := taken
    obtain ⟨hstop, -⟩ := Bytes.length_of_slice? (slice?_of_takeAt htake)
    change (_, { s with position := s.position + 4 + record.length }) = _
    rw [hstop]

/-- Whether the position of a cursor is within its chunk, the chunk not greater than the greatest that is read, and
all that was taken within a file. -/
structure Within (f : BootstrapFile) (s : Cursor) : Prop where
  position : s.position ≤ s.chunk.length
  size : s.chunk.length ≤ maxChunkSize
  input : 4 * s.chunksRead + s.chunk.length + s.input.length ≤ f.body.length

/-- In front of the first chunk a cursor is within the file. -/
theorem within_start (f : BootstrapFile) : (start f).Within f where
  position := Nat.le_refl 0
  size := Nat.zero_le _
  input := by simp [start]

namespace Within

/-- It is so after loading a chunk. -/
theorem nextChunk (h : s.Within f) : s.nextChunk.2.Within f := by
  have hinput := h.input
  rw [Cursor.nextChunk]
  split_ifs with hshort hlarge hcut
  · exact ⟨h.position, h.size, by dsimp only [List.length_nil]; omega⟩
  · exact ⟨h.position, h.size, by dsimp only; rw [List.length_drop]; omega⟩
  · exact ⟨h.position, h.size, by dsimp only [List.length_nil]; omega⟩
  · rw [List.length_drop] at hcut
    refine ⟨Nat.zero_le _, ?_, ?_⟩
    · exact (List.length_take_le _ _).trans (Nat.not_lt.mp hlarge)
    · dsimp only
      rw [List.length_take, List.length_drop, List.length_drop, List.length_drop]
      omega

/-- It is so after taking a frame. -/
theorem nextFrame (h : s.Within f) : s.nextFrame.2.Within f := by
  induction hlength : s.input.length using Nat.strong_induction_on generalizing s with
  | _ n ih =>
    by_cases hposition : s.position < s.chunk.length
    · rw [nextFrame_of_lt hposition]
      cases htake : takeAt s.chunk s.position with
      | error e => exact h
      | ok taken => exact { h with position := (Bytes.length_of_slice? (slice?_of_takeAt htake)).2 }
    · have hnext := h.nextChunk
      rw [Cursor.nextFrame, if_neg hposition]
      split
      all_goals
        rename_i hload
        rw [hload] at hnext
      · exact hnext
      · exact hnext
      · have hshorter := length_input_of_nextChunk hload
        exact ih _ (by omega) hnext rfl

/-- It is so after each answer. -/
theorem next (h : s.Within f) : (s.next decode).2.Within f := by
  have hframe := h.nextFrame
  rw [Cursor.next]
  split
  · exact h
  · split
    all_goals
      rename_i htake
      rw [htake] at hframe
    · exact ⟨hframe.position, hframe.size, hframe.input⟩
    · exact hframe
    · split
      · exact ⟨hframe.position, hframe.size, hframe.input⟩
      · exact hframe

end Within

/-- A frame that is taken is a slice of the chunk. -/
theorem exists_slice_of_nextFrame (h : s.nextFrame = (.ok (some record), s')) :
    ∃ start, Bytes.slice? s'.chunk start s'.position = some record := by
  induction hlength : s.input.length using Nat.strong_induction_on generalizing s with
  | _ n ih =>
    by_cases hposition : s.position < s.chunk.length
    · rw [nextFrame_of_lt hposition] at h
      cases htake : takeAt s.chunk s.position with
      | error e => simp [htake] at h
      | ok taken =>
        rw [htake] at h
        obtain ⟨hrecord, rfl⟩ := Prod.mk.inj h
        obtain rfl := Option.some.inj (Except.ok.inj hrecord)
        exact ⟨_, slice?_of_takeAt htake⟩
    · rw [nextFrame, if_neg hposition] at h
      split at h
      · cases h
      · cases h
      · rename_i hload
        have hshorter := length_input_of_nextChunk hload
        exact ih _ (by omega) h rfl

variable (decode) in
/-- The cursor after some answers. -/
def after (s : Cursor) : ℕ → Cursor
  | 0 => s
  | n + 1 => (s.next decode).2.after n

variable (decode) in
/-- What is given after some answers. -/
def answer (s : Cursor) (n : ℕ) : Option (Except BootstrapError α) := ((s.after decode n).next decode).1

/-- Whatever was asked, a cursor is within the file. -/
theorem Within.after (h : s.Within f) (n : ℕ) : (s.after decode n).Within f := by
  induction n generalizing s with
  | zero => exact h
  | succ n ih => exact ih h.next

/-- After the end a cursor stays where it is. -/
theorem after_of_end (h : s.next decode = (none, s)) (n : ℕ) : s.after decode n = s := by
  induction n with
  | zero => rfl
  | succ n ih => rw [Cursor.after, h, ih]

/-- What a cursor gives until there is no next item are its answers, and there are no others. -/
theorem Yields.answer_eq {found : List (Except BootstrapError α)} (h : Yields decode s found last)
    (hend : last.next decode = (none, last)) (n : ℕ) : s.answer decode n = found[n]? := by
  induction h generalizing n with
  | done hnext =>
    cases n with
    | zero => rw [answer, Cursor.after, hnext, List.getElem?_nil]
    | succ n => rw [answer, Cursor.after, hnext, after_of_end hend, hend, List.getElem?_nil]
  | item hnext _ ih =>
    cases n with
    | zero => rw [answer, Cursor.after, hnext, List.getElem?_cons_zero]
    | succ n => rw [answer, Cursor.after, hnext, List.getElem?_cons_succ, ← ih hend n, answer]

/-- There are not more answers than bytes, apart from a fault. -/
theorem Yields.length_le {found : List (Except BootstrapError α)} (h : Yields decode s found last) :
    found.length ≤ s.size + 1 := by
  induction h with
  | done hnext => exact Nat.zero_le _
  | @item s s' last answer others hnext hrest ih =>
    by_cases hfailed : s.failed
    · rw [next, if_pos hfailed] at hnext
      cases hnext
    · have hgives : s.Gives decode (s.next decode) := left_next (Bool.eq_false_iff.mpr hfailed)
      rw [hnext] at hgives
      rw [List.length_cons]
      cases answer with
      | ok item =>
        have hless := hgives.2.1
        omega
      | error e =>
        cases hrest with
        | done _ => exact Nat.le_add_left _ _
        | item hmore _ =>
          rw [next, if_pos hgives.2] at hmore
          cases hmore

/-- Asked for more items than there are, a cursor gives all of them. -/
theorem Yields.take_eq {found : List (Except BootstrapError α)} (h : Yields decode s found last) {count : ℕ}
    (hcount : found.length < count) : s.take decode count = (found, last) := by
  induction h generalizing count with
  | done hnext =>
    obtain ⟨count, rfl⟩ := Nat.exists_eq_add_one_of_ne_zero (Nat.ne_zero_of_lt hcount)
    rw [take, hnext]
  | item hnext _ ih =>
    obtain ⟨count, rfl⟩ := Nat.exists_eq_add_one_of_ne_zero (Nat.ne_zero_of_lt hcount)
    rw [take, hnext]
    dsimp only
    rw [ih (Nat.lt_of_succ_lt_succ hcount)]

/-- To exhaust a cursor is to ask until there is no next item. -/
theorem Yields.exhaust_eq {found : List (Except BootstrapError α)} (h : Yields decode s found last) :
    s.exhaust decode = (found, last) :=
  h.take_eq (Nat.lt_succ_of_le h.length_le)

/-- Counted one after the other, the frames are as many as are left. -/
theorem countFrames_eq (s : Cursor) (count : ℕ) :
    s.countFrames count = (s.left Except.ok).toExcept.map fun records => count + records.length := by
  induction hsize : s.size using Nat.strong_induction_on generalizing s count with
  | _ n ih =>
    have htakes : s.Takes Except.ok s.nextFrame := s.takes_nextFrame
    rw [countFrames]
    split
    all_goals
      rename_i htake
      rw [htake] at htakes
    · have hleft : s.left Except.ok = _ := htakes
      rw [hleft]
      rfl
    · rw [htakes.1]
      rfl
    · rename_i record s'
      obtain ⟨hless, hleft⟩ := htakes
      rw [ih s'.size (by omega) s' (count + 1) rfl, hleft, Contents.toExcept, Contents.toExcept]
      cases (s'.left Except.ok).failure with
      | some e => rfl
      | none =>
        change Except.ok (count + 1 + (s'.left Except.ok).items.length) =
          Except.ok (count + ((s'.left Except.ok).items.length + 1))
        rw [Nat.add_assoc, Nat.add_comm 1]

end Cursor

/-- To exhaust a cursor in front of a file gives what the file holds, and then nothing is left. -/
theorem BootstrapFile.exhaust_start {α : Type} (decode : Bytes → Except BootstrapError α) (f : BootstrapFile) :
    ∃ last, (Cursor.start f).exhaust decode = ((f.contents decode).results, last) ∧
      last.chunksRead = (f.contents decode).chunks ∧ last.next decode = (none, last) := by
  obtain ⟨last, hyields, hchunks, hend⟩ := f.yields_contents decode
  exact ⟨last, hyields.exhaust_eq, hchunks, hend⟩

/-- The items to which records decode, up to the first one that does not, and what is wrong with that one. -/
inductive DecodesTo {α : Type} (decode : Bytes → Except BootstrapError α) :
    List Bytes → List α → Option BootstrapError → Prop
  | nil : DecodesTo decode [] [] none
  | item {record : Bytes} {item : α} {records : List Bytes} {items : List α} {fault : Option BootstrapError}
    (h : decode record = .ok item) (hrest : DecodesTo decode records items fault) :
    DecodesTo decode (record :: records) (item :: items) fault
  | fault {record : Bytes} {records : List Bytes} {e : BootstrapError} (h : decode record = .error e) :
    DecodesTo decode (record :: records) [] (some e)

namespace DecodesTo

variable {α : Type} {decode : Bytes → Except BootstrapError α} {records more : List Bytes} {items others : List α}
  {fault : Option BootstrapError} {e : BootstrapError}

/-- Records behind some that all decode are decoded. -/
theorem append (h : DecodesTo decode records items none) (hmore : DecodesTo decode more others fault) :
    DecodesTo decode (records ++ more) (items ++ others) fault := by
  induction records generalizing items with
  | nil =>
    cases h
    exact hmore
  | cons record records ih =>
    cases h with
    | item hrecord hrest => exact .item hrecord (ih hrest)

/-- Those behind one that does not decode are not looked at. -/
theorem append_fault (h : DecodesTo decode records items (some e)) (more : List Bytes) :
    DecodesTo decode (records ++ more) items (some e) := by
  induction records generalizing items with
  | nil => cases h
  | cons record records ih =>
    cases h with
    | item hrecord hrest => exact .item hrecord (ih hrest)
    | fault hrecord => exact .fault hrecord

/-- Either all records decode, or those in front of one that does not. -/
theorem all_or_fault (h : DecodesTo decode records items fault) :
    (fault = none ∧ List.Forall₂ (fun record item => decode record = .ok item) records items) ∨
      ∃ front record back e, fault = some e ∧ records = front ++ record :: back ∧ decode record = .error e ∧
        List.Forall₂ (fun record item => decode record = .ok item) front items := by
  induction h with
  | nil => exact .inl ⟨rfl, .nil⟩
  | item hrecord _ ih =>
    obtain ⟨rfl, hitems⟩ | ⟨front, record, back, e, rfl, rfl, hfault, hitems⟩ := ih
    · exact .inl ⟨rfl, .cons hrecord hitems⟩
    · exact .inr ⟨_ :: front, record, back, e, rfl, rfl, hfault, .cons hrecord hitems⟩
  | fault hrecord => exact .inr ⟨[], _, _, _, rfl, rfl, hrecord, .nil⟩

end DecodesTo

namespace Contents

variable {α : Type} {decode : Bytes → Except BootstrapError α}

/-- The frames of a chunk give what their records decode to. -/
theorem decodesTo_ofFrames {records : List Bytes} {fuel : ℕ}
    (hlength : ∀ record ∈ records, record.length < 256 ^ 4) (hfuel : records.length ≤ fuel) :
    DecodesTo decode records (ofFrames decode fuel (framed records)).items
      (ofFrames decode fuel (framed records)).failure := by
  induction records generalizing fuel with
  | nil => cases fuel <;> exact .nil
  | cons record records ih =>
    obtain ⟨hfirst, hothers⟩ := List.forall_mem_cons.mp hlength
    rw [List.length_cons] at hfuel
    obtain ⟨fuel, rfl⟩ := Nat.exists_eq_add_of_le' hfuel
    rw [framed_cons, ← Nat.add_assoc, ofFrames.eq_3 _ _ _ (frame_append_ne_nil _ _),
      takeFrame_frame_append hfirst]
    dsimp only
    cases hrecord : decode record with
    | error e => exact .fault hrecord
    | ok item => exact .item hrecord (ih hothers (Nat.le_add_left _ _))

/-- So do those of chunks with nothing behind them. -/
theorem decodesTo_ofChunks {groups : List (List Bytes)}
    (hsize : ∀ records ∈ groups, (framed records).length ≤ maxChunkSize) :
    DecodesTo decode groups.flatten (ofChunks decode none (groups.map framed)).items
      (ofChunks decode none (groups.map framed)).failure := by
  induction groups with
  | nil => exact .nil
  | cons records groups ih =>
    obtain ⟨hfirst, hothers⟩ := List.forall_mem_cons.mp hsize
    have hframes := length_le_framed records
    have hchunk : DecodesTo decode records (ofChunk decode (framed records)).items
        (ofChunk decode (framed records)).failure :=
      decodesTo_ofFrames (fun _ => length_lt_of_mem hfirst) (by omega)
    rw [List.map_cons, List.flatten_cons, ofChunks]
    dsimp only
    cases hfailure : (ofChunk decode (framed records)).failure with
    | some e =>
      rw [hfailure] at hchunk
      exact hchunk.append_fault _
    | none =>
      rw [hfailure] at hchunk
      exact hchunk.append (ih hothers)

end Contents

/-- A record that is not read does not decode. -/
theorem exists_decodeError_of_readRecord {α : Type} [Codec α] {bs : Bytes} {e : BootstrapError}
    (h : readRecord α bs = .error e) : ∃ d, e = .codec (.decode d) := by
  rw [readRecord] at h
  cases hread : Codec.read (α := α) bs with
  | ok x => simp [hread, Except.mapError] at h
  | error d =>
    rw [hread] at h
    exact ⟨d, (Except.error.inj h).symm⟩

namespace BootstrapFile

variable {f : BootstrapFile} {bytes : Bytes}

/-- What is given when the packages of a file are asked for again and again. -/
def answer (f : BootstrapFile) (n : ℕ) : Option (Except BootstrapError BlockPackage) :=
  (Cursor.start f).answer (readRecord BlockPackage) n

/-- The answers are what the file holds. -/
theorem answer_eq (f : BootstrapFile) (n : ℕ) : f.answer n = f.packages.results[n]? := by
  obtain ⟨last, hyields, -, hend⟩ := f.yields_contents (readRecord BlockPackage)
  exact hyields.answer_eq hend n

/-- There are not more of them than bytes, apart from a fault. -/
theorem length_results_le (f : BootstrapFile) : f.packages.results.length ≤ f.body.length + 1 := by
  obtain ⟨last, hyields, -, -⟩ := f.yields_contents (readRecord BlockPackage)
  exact hyields.length_le

/-- The frames of a file are counted one after the other. -/
theorem count_eq_countFrames (f : BootstrapFile) : f.count = (Cursor.start f).countFrames 0 := by
  rw [Cursor.countFrames_eq, Cursor.left_start, count]
  simp only [Nat.zero_add]

/-- If the frames of a file are found, then its packages are what they decode to. -/
theorem decodesTo_of_frames {records : List Bytes} (h : f.frames = .ok records) :
    DecodesTo (readRecord BlockPackage) records f.packages.items f.packages.failure := by
  obtain ⟨groups, hlaid, rfl⟩ := frames_eq_ok_iff.mp h
  rw [packages, contents, hlaid.cut]
  exact Contents.decodesTo_ofChunks hlaid.size

/-- There are at least four bytes for each frame that is found. -/
theorem length_frames_le {records : List Bytes} (h : f.frames = .ok records) :
    4 * records.length ≤ f.body.length := by
  obtain ⟨groups, hlaid, rfl⟩ := frames_eq_ok_iff.mp h
  have hgroups : 4 * groups.flatten.length ≤ (framed (groups.map framed)).length := by
    clear hlaid h
    induction groups with
    | nil => exact Nat.zero_le _
    | cons records groups ih =>
      have hfirst := length_le_framed records
      rw [List.flatten_cons, List.map_cons, framed_cons, List.length_append, List.length_append, length_frame]
      omega
  rw [hlaid.body, List.length_append]
  omega

/-- What a number that was counted says of the packages of a file: it is that of the frames, which are taken
one after the other. If all of them decode, then as many packages are given; otherwise those in front of the
first frame that does not, and then its fault. The number is far from the greatest one of a counter, as each
frame has four bytes or more. -/
structure Counted (f : BootstrapFile) (n : ℕ) (frames : List Bytes) : Prop where
  length : frames.length = n
  bound : 4 * n ≤ f.body.length
  taken : ∀ k, (Cursor.start f).answer Except.ok k = (frames.map Except.ok)[k]?
  given : (∃ packages, List.Forall₂ (fun frame package => readRecord BlockPackage frame = .ok package) frames packages ∧
      ∀ k, f.answer k = (packages.map Except.ok)[k]?) ∨
    ∃ front frame back packages e, frames = front ++ frame :: back ∧
      List.Forall₂ (fun frame package => readRecord BlockPackage frame = .ok package) front packages ∧
      readRecord BlockPackage frame = .error (.codec (.decode e)) ∧
      ∀ k, f.answer k = (packages.map Except.ok ++ [.error (.codec (.decode e))])[k]?

/-- Reading is safe if it ends and does not look at bytes that are not there: some packages are given, then
nothing or one fault, and nothing more after that, while the cursor stays within the file and takes slices of
its chunk. A number that is counted is that of the frames from which the packages are read. -/
structure ReadsSafely (f : BootstrapFile) (bytes : Bytes) : Prop where
  ends : ∃ (packages : List BlockPackage) (fault : Option BootstrapError),
    packages.length + fault.toList.length ≤ f.body.length + 1 ∧
      ∀ k, f.answer k = (packages.map Except.ok ++ fault.toList.map Except.error)[k]?
  within : ∀ k, ((Cursor.start f).after (readRecord BlockPackage) k).Within f
  slice : ∀ k record s, ((Cursor.start f).after (readRecord BlockPackage) k).nextFrame = (.ok (some record), s) →
    s.Within f ∧ ∃ start, Bytes.slice? s.chunk start s.position = some record
  counting : countBlocks bytes = ((Cursor.start f).countFrames 0).map fun n => (n, f.header.blocks.first)
  counted : ∀ n first, countBlocks bytes = .ok (n, first) → ∃ frames, f.Counted n frames

/-- Counting reads the header, and then goes from frame to frame. -/
theorem countBlocks_eq (h : read bytes = .ok f) :
    countBlocks bytes = ((Cursor.start f).countFrames 0).map fun n => (n, f.header.blocks.first) := by
  rw [countBlocks, h, ← count_eq_countFrames]
  change (f.count >>= fun n => Except.ok (n, f.header.blocks.first)) = _
  cases f.count <;> rfl

/-- The frames that are counted are those that the packages are read from. -/
theorem counted_of_frames {frames : List Bytes} (h : f.frames = .ok frames) : f.Counted frames.length frames := by
  refine ⟨rfl, length_frames_le h, ?taken, ?given⟩
  case taken =>
    intro k
    obtain ⟨last, hyields, -, hend⟩ := f.yields_contents Except.ok
    have hresults : (f.contents Except.ok).results = frames.map Except.ok := by
      rw [BootstrapFile.frames, Contents.toExcept] at h
      split at h
      · cases h
      · rename_i hnone
        rw [Contents.results, hnone, Except.ok.inj h]
        exact List.append_nil _
    rw [← hresults]
    exact hyields.answer_eq hend k
  case given =>
    obtain ⟨hnone, hall⟩ | ⟨front, frame, back, e, hfault, hframes, hframe, hfront⟩ :=
      (decodesTo_of_frames h).all_or_fault
    · refine .inl ⟨_, hall, fun k => ?_⟩
      rw [answer_eq, Contents.results, hnone, Option.toList_none, List.map_nil, List.append_nil]
    · obtain ⟨d, rfl⟩ := exists_decodeError_of_readRecord hframe
      refine .inr ⟨front, frame, back, _, d, hframes, hfront, hframe, fun k => ?_⟩
      rw [answer_eq, Contents.results, hfault, Option.toList_some, List.map_singleton]

/-- Whatever the bytes of a file are, its header is read from slices. It is refused with an error, also by
counting, or the file is read safely: packages are given until there is none or a fault, all of them from slices
within the chunks, and a number that is counted is that of the frames from which they are read. -/
theorem reads_any (bytes : Bytes) :
    (∀ header, BootstrapHeader.ofRecords header = BootstrapHeader.ofSlices header) ∧
      ((∃ e, read bytes = .error e ∧ countBlocks bytes = .error e) ∨
        ∃ f, read bytes = .ok f ∧ f.ReadsSafely bytes) := by
  refine ⟨BootstrapHeader.ofRecords_eq_ofSlices, ?_⟩
  cases hread : read bytes with
  | error e => exact .inl ⟨e, rfl, by rw [countBlocks, hread]; rfl⟩
  | ok f =>
    refine .inr ⟨f, rfl, ?ends, ?within, ?slice, countBlocks_eq hread, ?counted⟩
    case ends =>
      have hlength := f.length_results_le
      rw [Contents.results, List.length_append, List.length_map, List.length_map] at hlength
      exact ⟨_, _, hlength, f.answer_eq⟩
    case within => exact (Cursor.within_start f).after
    case slice =>
      intro k record s htake
      have hafter : ((Cursor.start f).after (readRecord BlockPackage) k).Within f := (Cursor.within_start f).after k
      have hwithin := hafter.nextFrame
      rw [htake] at hwithin
      exact ⟨hwithin, Cursor.exists_slice_of_nextFrame htake⟩
    case counted =>
      intro n first hcount
      obtain ⟨g, frames, hg, -, hframes, rfl⟩ := countBlocks_eq_ok_iff.mp hcount
      obtain rfl := Except.ok.inj (hread.symm.trans hg)
      exact ⟨frames, counted_of_frames hframes⟩

end BootstrapFile

end RingDepth
