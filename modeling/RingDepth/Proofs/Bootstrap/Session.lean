import RingDepth.Proofs.Bootstrap.Filling
import RingDepth.Proofs.Bootstrap.Layout
import RingDepth.Proofs.Bootstrap.Opening
import RingDepth.Proofs.Codec.Size

/-!
# Files that finished writers leave

A file is whole if it reads to its end without a fault and nothing is left over behind its last chunk. A file
that was just started is whole, and a whole file stays so when chunks are put behind it that may be read: it
has the chunks that it had and then these.

A writer that is finished leaves the bytes with which it began and behind them the chunks of the hundreds that
were added to it. So what is at the path of a session is whole again, if it was before and the chunks that
were added may be read.
-/

namespace RingDepth

namespace Contents

variable {α : Type} {decode : Bytes → Except BootstrapError α}

/-- A chunk that is read without a fault has a frame for each item. -/
theorem exists_frames_of_ofChunk {chunk : Bytes} {items : List α} (h : ofChunk decode chunk = { items }) :
    ∃ records, ofChunk Except.ok chunk = { items := records } ∧ records.length = items.length := by
  obtain ⟨records, hchunk, hlength, hdecode⟩ := ofChunk_eq_iff.mp h
  exact ⟨records, ofChunk_eq_iff.mpr ⟨records, hchunk, hlength, List.forall₂_same.mpr fun _ _ => rfl⟩,
    hdecode.length_eq⟩

/-- So have chunks one after the other. -/
theorem exists_frames_of_forall₂ {chunks : List Bytes} {groups : List (List α)}
    (h : List.Forall₂ (fun chunk items => ofChunk decode chunk = { items }) chunks groups) :
    ∃ frames, List.Forall₂ (fun chunk records => ofChunk Except.ok chunk = { items := records }) chunks frames ∧
      frames.flatten.length = groups.flatten.length := by
  induction h with
  | nil => exact ⟨[], .nil, rfl⟩
  | cons hchunk _ ih =>
    obtain ⟨records, hrecords, hlength⟩ := exists_frames_of_ofChunk hchunk
    obtain ⟨frames, hframes, hlengths⟩ := ih
    refine ⟨records :: frames, .cons hrecords hframes, ?_⟩
    rw [List.flatten_cons, List.flatten_cons, List.length_append, List.length_append, hlength, hlengths]

end Contents

/-- The packages of a chunk that may be read can be written without loss. -/
theorem fits_of_chunkOf {ps : List BlockPackage} (hsize : (chunkOf ps).length ≤ maxChunkSize)
    {p : BlockPackage} (hp : p ∈ ps) : Codec.Fits p := by
  obtain ⟨front, back, rfl⟩ := List.append_of_mem hp
  rw [chunkOf_eq_framed, List.map_append, List.map_cons, framed_append, framed_cons, List.length_append,
    List.length_append, length_frame] at hsize
  exact BlockPackage.fits_of_length (by omega)

/-- A chunk of packages that may be read gives these packages. -/
theorem ofChunk_readRecord_chunkOf {ps : List BlockPackage} (hsize : (chunkOf ps).length ≤ maxChunkSize) :
    Contents.ofChunk (readRecord BlockPackage) (chunkOf ps) = { items := ps } := by
  have hdecode (p : BlockPackage) (hp : p ∈ ps) : readRecord BlockPackage (Codec.encode p) = .ok (id p) :=
    readRecord_encode (fits_of_chunkOf hsize hp)
  rw [Contents.ofChunk_chunkOf hdecode hsize, List.map_id]

namespace BootstrapFile

/-- The chunks that are cut off the body of a file. -/
def chunks (f : BootstrapFile) : List Bytes := (cutChunks f.body.length 0 f.body).1

/-- The packages in each chunk of a file. -/
def groups (f : BootstrapFile) : List (List BlockPackage) :=
  f.chunks.map fun chunk => (Contents.ofChunk (readRecord BlockPackage) chunk).items

/-- Whether a file reads to its end: there is no fault in it, and nothing is left over. -/
structure Whole (f : BootstrapFile) : Prop where
  failure : f.packages.failure = none
  leftover : f.leftover = []

/-- Whether a file is put together of chunks that may be read, and of the packages in them. -/
structure Composed (f : BootstrapFile) (chunks : List Bytes) (groups : List (List BlockPackage)) : Prop where
  body : f.body = framed chunks
  size : ∀ chunk ∈ chunks, chunk.length ≤ maxChunkSize
  reads : List.Forall₂ (fun chunk ps => Contents.ofChunk (readRecord BlockPackage) chunk = { items := ps })
    chunks groups

namespace Composed

variable {f : BootstrapFile} {chunks : List Bytes} {groups : List (List BlockPackage)}

/-- The chunks are cut off. -/
theorem cut (h : f.Composed chunks groups) : cutChunks f.body.length 0 f.body = (chunks, none) := by
  have hcut := cutChunks_length h.size (show ([] : Bytes).length < 4 by decide) 0
  rwa [List.append_nil, ← h.body] at hcut

/-- They are the chunks of the file. -/
theorem chunks_eq (h : f.Composed chunks groups) : f.chunks = chunks := by
  rw [BootstrapFile.chunks, h.cut]

/-- The packages in them are those of the chunks of the file. -/
theorem groups_eq (h : f.Composed chunks groups) : f.groups = groups := by
  rw [BootstrapFile.groups, h.chunks_eq, ← List.forall₂_eq_eq_eq, List.forall₂_map_left_iff]
  exact h.reads.imp fun chunk ps hchunk => by rw [hchunk]

/-- All of them are read, one chunk after the other. -/
theorem packages_eq (h : f.Composed chunks groups) :
    f.packages = { items := groups.flatten, chunks := chunks.length } := by
  rw [packages, contents, h.cut]
  exact Contents.ofChunks_of_forall₂ h.reads

/-- A file that is put together of chunks is whole. -/
theorem whole (h : f.Composed chunks groups) : f.Whole where
  failure := by rw [h.packages_eq]
  leftover := by rw [leftover, h.cut, h.body, List.drop_length]

end Composed

/-- A whole file is put together of its chunks. -/
theorem Whole.composed {f : BootstrapFile} (h : f.Whole) : f.Composed f.chunks f.groups := by
  have hfailure := h.failure
  rw [packages, contents] at hfailure
  rcases hcut : cutChunks f.body.length 0 f.body with ⟨chunks, failure⟩
  rw [hcut] at hfailure
  obtain ⟨rfl, groups, hreads⟩ := Contents.exists_forall₂_of_ofChunks hfailure
  obtain ⟨leftover, hbody, -, hsize⟩ := eq_framed_append_of_cutChunks (Nat.le_refl _) hcut
  have hnone := h.leftover
  rw [BootstrapFile.leftover, hcut, hbody, List.drop_left] at hnone
  subst hnone
  rw [List.append_nil] at hbody
  have hcomposed : f.Composed chunks groups := ⟨hbody, hsize, hreads⟩
  rw [hcomposed.chunks_eq, hcomposed.groups_eq]
  exact hcomposed

/-- The packages of a whole file are those of its chunks. -/
theorem Whole.items_eq {f : BootstrapFile} (h : f.Whole) : f.packages.items = f.groups.flatten := by
  rw [h.composed.packages_eq]

/-- As many frames of a whole file are counted as there are packages. -/
theorem Whole.count {f : BootstrapFile} (h : f.Whole) : f.count = .ok f.packages.items.length := by
  have hcomposed := h.composed
  obtain ⟨frames, hframes, hlength⟩ := Contents.exists_frames_of_forall₂ hcomposed.reads
  rw [BootstrapFile.count, contents, hcomposed.cut]
  dsimp only
  rw [Contents.ofChunks_of_forall₂ hframes, h.items_eq, ← hlength]
  rfl

/-- So they are, from the height that its header names. -/
theorem Whole.countBlocks {bytes : Bytes} {f : BootstrapFile} (h : f.Whole) (hread : read bytes = .ok f) :
    countBlocks bytes = .ok (f.packages.items.length, f.header.blocks.first) :=
  bind_eq_ok_iff.mpr ⟨f, hread, bind_eq_ok_iff.mpr ⟨_, h.count, rfl⟩⟩

/-- Behind a file come the chunks that are put there, if they may be read. -/
theorem Composed.extend {f : BootstrapFile} {chunks : List Bytes} {groups : List (List BlockPackage)}
    (h : f.Composed chunks groups) {more : List (List BlockPackage)}
    (hsize : ∀ ps ∈ more, (chunkOf ps).length ≤ maxChunkSize) :
    (f.extend (bodyOf more)).Composed (chunks ++ more.map chunkOf) (groups ++ more) where
  body := by
    rw [BootstrapFile.extend, h.body, framed_append, bodyOf_eq_framed]
  size := List.forall_mem_append.mpr ⟨h.size, List.forall_mem_map.mpr hsize⟩
  reads := by
    refine List.rel_append h.reads ?_
    rw [List.forall₂_map_left_iff, List.forall₂_same]
    exact fun ps hps => ofChunk_readRecord_chunkOf (hsize ps hps)

/-- A file that was started for some heights, and what was put behind its header. -/
def started (first last : UInt64) (body : Bytes) : BootstrapFile where
  header := { file := {}, blocks := { first, last } }
  body := body

/-- Without anything behind its header it has no chunks. -/
theorem composed_started (first last : UInt64) : (started first last []).Composed [] [] :=
  ⟨rfl, List.forall_mem_nil _, .nil⟩

end BootstrapFile

namespace BootstrapFile

/-- Whether a file is whole and has the chunks of another one, and then those of some packages: a chunk for
each hundred of them. -/
structure LengthenedBy (f f' : BootstrapFile) (packages : List BlockPackage) : Prop where
  header : f'.header = f.header
  whole : f'.Whole
  chunks : f'.chunks = f.chunks ++ (hundreds packages).map chunkOf
  groups : f'.groups = f.groups ++ hundreds packages

/-- So it reads as the other one with the packages behind it. -/
theorem LengthenedBy.items {f f' : BootstrapFile} {packages : List BlockPackage}
    (h : f.LengthenedBy f' packages) (hwhole : f.Whole) :
    f'.packages.items = f.packages.items ++ packages := by
  rw [h.whole.items_eq, h.groups, hwhole.items_eq, List.flatten_append, flatten_hundreds]

/-- Chunks of packages that are put behind a whole file lengthen it, if they may be read. -/
theorem Whole.lengthenedBy {f : BootstrapFile} (h : f.Whole) {packages : List BlockPackage}
    (hfit : HundredsFit packages) : f.LengthenedBy (f.extend (bodyOf (hundreds packages))) packages := by
  have hcomposed := h.composed.extend (hundredsFit_iff.mp hfit)
  exact ⟨rfl, hcomposed.whole, hcomposed.chunks_eq, hcomposed.groups_eq⟩

end BootstrapFile

namespace BootstrapWriter

variable {t t' : FileTree} {path : String} {before : Option Bytes} {first last : UInt64}
  {w w' : BootstrapWriter} {packages : List BlockPackage}

/-- What is at a path before a writer is opened there: nothing, or a file with some bytes. -/
def LeftAt (t : FileTree) (path : String) : Option Bytes → Prop
  | none => FreshPath t path
  | some bytes => KeepsAt t path bytes

/-- The bytes with which a writer begins: those of the file that is there, or those of one that is started. -/
def openedBytes (before : Option Bytes) (first last : UInt64) : Bytes :=
  before.getD (create first last).file

/-- The file at a path is read from its bytes. -/
theorem KeepsAt.readAt {bytes : Bytes} (h : KeepsAt t path bytes) :
    BootstrapFile.readAt t path = BootstrapFile.read bytes := by
  rw [BootstrapFile.readAt, BootstrapFile.bytesAt, h.holds.readBytes]
  rfl

/-- So are its packages counted. -/
theorem KeepsAt.countBlocksAt {bytes : Bytes} (h : KeepsAt t path bytes) :
    BootstrapFile.countBlocksAt t path = BootstrapFile.countBlocks bytes := by
  rw [BootstrapFile.countBlocksAt, BootstrapFile.bytesAt, h.holds.readBytes]
  rfl

/-- A writer is opened at a path with what is there. -/
theorem LeftAt.openAt (h : LeftAt t path before) (first last : UInt64) :
    ∃ t', BootstrapWriter.openAt t path first last = (t', start before first last) ∧
      KeepsAt t' path (openedBytes before first last) := by
  cases before with
  | none => exact FreshPath.openAt h first last
  | some bytes => exact ⟨t, KeepsAt.openAt h first last, h⟩

/-- A writer that goes on with a file has its bytes, and has added nothing. -/
theorem filling_of_start (h : start before first last = .ok w) :
    w.Filling (openedBytes before first last) [] [] ∧ w.written = 0 := by
  cases before with
  | none =>
    obtain rfl := Except.ok.inj h
    exact ⟨.nil rfl rfl, rfl⟩
  | some bytes =>
    obtain ⟨⟨count, height⟩, -, h⟩ := bind_eq_ok_iff.mp h
    obtain ⟨next, -, heq⟩ := bind_eq_ok_iff.mp h
    obtain rfl := Except.ok.inj heq
    exact ⟨.nil rfl rfl, rfl⟩

/-- A finished writer leaves the bytes with which it began, and behind them the hundreds that were added. -/
theorem file_of_start (hstart : start before first last = .ok w)
    (happend : w.appendAll packages = (w', .ok ())) :
    w'.flush.file = openedBytes before first last ++ bodyOf (hundreds packages) ∧
      w'.nextHeight.toNat = w.nextHeight.toNat + packages.length ∧ w'.written = packages.length := by
  obtain ⟨hnothing, hzero⟩ := filling_of_start hstart
  obtain ⟨⟨chunks, waiting, hfilling, hpackages⟩, hnext, hwritten⟩ := hnothing.appendAll happend
  rw [List.flatten_nil, List.nil_append, List.nil_append] at hpackages
  rw [hzero, Nat.zero_add] at hwritten
  exact ⟨hpackages ▸ hfilling.file_flush, hnext, hwritten⟩

/-- A session that ends well leaves a file with the hundreds that it added behind what was there. -/
theorem addAt_eq_ok {result : UInt64 × UInt64 × ℕ} (hleft : LeftAt t path before)
    (hadd : addAt t path first last packages = (t', .ok result)) :
    KeepsAt t' path (openedBytes before first last ++ bodyOf (hundreds packages)) := by
  obtain ⟨t₁, hopen, hkeeps⟩ := hleft.openAt first last
  rw [addAt, hopen] at hadd
  split at hadd
  · cases hadd
  · rename_i _ w hw
    obtain ⟨rfl, hstart⟩ := Prod.mk.inj hw
    split at hadd
    · cases hadd
    · rename_i w' happend
      obtain ⟨rfl, -⟩ := Prod.mk.inj hadd
      rw [(file_of_start hstart happend).1.symm]
      exact hkeeps.saveBytes _

/-- The header of a file that is started is read, with what is put behind it. -/
theorem read_started (first last : UInt64) (body : Bytes) :
    BootstrapFile.read (openedBytes none first last ++ body) = .ok (.started first last body) :=
  map_eq_ok_iff.mpr ⟨_, BootstrapHeader.read_encode_append _ rfl body, rfl⟩

/-- What a writer begins with is whole, if the file that was there is. -/
theorem exists_whole_openedBytes
    (hwhole : ∀ bytes, before = some bytes → ∃ f, BootstrapFile.read bytes = .ok f ∧ f.Whole)
    (first last : UInt64) : ∃ f, BootstrapFile.read (openedBytes before first last) = .ok f ∧ f.Whole := by
  cases before with
  | none =>
    have hread := read_started first last []
    rw [List.append_nil] at hread
    exact ⟨_, hread, (BootstrapFile.composed_started first last).whole⟩
  | some bytes => exact hwhole bytes rfl

/-- What a session leaves is a whole file, lengthened by the packages that were added, if what was there before
is whole and the chunks that were added may be read. -/
theorem addAt_leaves {result : UInt64 × UInt64 × ℕ} (hleft : LeftAt t path before)
    (hwhole : ∀ bytes, before = some bytes → ∃ f, BootstrapFile.read bytes = .ok f ∧ f.Whole)
    (hfit : HundredsFit packages) (hadd : addAt t path first last packages = (t', .ok result)) :
    ∃ f f' bytes', BootstrapFile.read (openedBytes before first last) = .ok f ∧ KeepsAt t' path bytes' ∧
      BootstrapFile.read bytes' = .ok f' ∧ f.LengthenedBy f' packages := by
  obtain ⟨f, hread, hopened⟩ := exists_whole_openedBytes hwhole first last
  exact ⟨f, _, _, hread, addAt_eq_ok hleft hadd, BootstrapFile.read_append hread _, hopened.lengthenedBy hfit⟩

end BootstrapWriter

end RingDepth
