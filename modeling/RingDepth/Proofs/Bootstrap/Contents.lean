import RingDepth.Bootstrap.Writer
import RingDepth.Proofs.Bootstrap.Framing

/-!
# The packages of a written file

The body of a file is a sequence of framed chunks, and a chunk a sequence of framed packages. Reading a
body that was put together in this way gives the packages of all chunks in order and no fault, if no chunk
is too large to be read. Lengths have four bytes, so a chunk that may be read has a length that can be
written, and so has each package in it.
-/

namespace RingDepth

/-- A package with its length in front. -/
def BlockPackage.framed (p : BlockPackage) : Bytes := frame (Codec.encode p)

/-- The bytes of a chunk of packages. -/
def chunkOf (ps : List BlockPackage) : Bytes := ps.flatMap BlockPackage.framed

/-- The bytes of some chunks, each with its length in front. -/
def bodyOf (chunks : List (List BlockPackage)) : Bytes := chunks.flatMap fun ps => frame (chunkOf ps)

/-- A chunk with one more package in front. -/
theorem chunkOf_cons (p : BlockPackage) (ps : List BlockPackage) :
    chunkOf (p :: ps) = frame (Codec.encode p) ++ chunkOf ps := List.flatMap_cons

/-- A body with one more chunk in front. -/
theorem bodyOf_cons (ps : List BlockPackage) (chunks : List (List BlockPackage)) :
    bodyOf (ps :: chunks) = frame (chunkOf ps) ++ bodyOf chunks := List.flatMap_cons

/-- A chunk consists of the frames of its packages. -/
theorem chunkOf_eq_framed (ps : List BlockPackage) : chunkOf ps = framed (ps.map Codec.encode) :=
  (List.flatMap_map Codec.encode frame ps).symm

/-- A body consists of the frames of its chunks. -/
theorem bodyOf_eq_framed (chunks : List (List BlockPackage)) : bodyOf chunks = framed (chunks.map chunkOf) :=
  (List.flatMap_map chunkOf frame chunks).symm

/-- A chunk has at least as many bytes as packages. -/
theorem length_le_chunkOf (ps : List BlockPackage) : ps.length ≤ (chunkOf ps).length := by
  have hframes := length_le_framed (ps.map Codec.encode)
  rw [← chunkOf_eq_framed, List.length_map] at hframes
  omega

namespace Contents

variable {α : Type} {decode : Bytes → Except BootstrapError α} {view : BlockPackage → α}

/-- The frames of a chunk that may be read give what its packages decode to. -/
theorem ofChunk_chunkOf {ps : List BlockPackage}
    (hdecode : ∀ p ∈ ps, decode (Codec.encode p) = .ok (view p))
    (hsize : (chunkOf ps).length ≤ maxChunkSize) : ofChunk decode (chunkOf ps) = { items := ps.map view } := by
  rw [chunkOf_eq_framed] at hsize ⊢
  refine ofChunk_eq_iff.mpr ⟨_, rfl, fun _ => length_lt_of_mem hsize, ?_⟩
  rw [List.forall₂_map_left_iff, List.forall₂_map_right_iff, List.forall₂_same]
  exact hdecode

/-- So do the chunks of some packages one after the other. -/
theorem forall₂_ofChunk_chunkOf {chunks : List (List BlockPackage)}
    (hdecode : ∀ p ∈ chunks.flatten, decode (Codec.encode p) = .ok (view p))
    (hsize : ∀ ps ∈ chunks, (chunkOf ps).length ≤ maxChunkSize) :
    List.Forall₂ (fun chunk items => ofChunk decode chunk = { items }) (chunks.map chunkOf)
      (chunks.map (List.map view)) := by
  rw [List.forall₂_map_left_iff, List.forall₂_map_right_iff, List.forall₂_same]
  exact fun ps hps =>
    ofChunk_chunkOf (fun p hp => hdecode p (List.mem_flatten_of_mem hps hp)) (hsize ps hps)

/-- Chunks that may be read give what the packages of all of them decode to, and then what comes behind
them. -/
theorem ofChunks_map_chunkOf {chunks : List (List BlockPackage)}
    (hdecode : ∀ p ∈ chunks.flatten, decode (Codec.encode p) = .ok (view p))
    (hsize : ∀ ps ∈ chunks, (chunkOf ps).length ≤ maxChunkSize) (failure : Option BootstrapError) :
    ofChunks decode failure (chunks.map chunkOf) =
      { items := chunks.flatten.map view, failure, chunks := chunks.length } := by
  rw [ofChunks_eq_of_forall₂ (forall₂_ofChunk_chunkOf hdecode hsize), List.map_flatten, List.length_map]

end Contents

/-- The body of a file is cut into its chunks. -/
theorem cutChunks_bodyOf {chunks : List (List BlockPackage)}
    (hsize : ∀ ps ∈ chunks, (chunkOf ps).length ≤ maxChunkSize) :
    cutChunks (bodyOf chunks).length 0 (bodyOf chunks) = (chunks.map chunkOf, none) := by
  have hchunks : ∀ chunk ∈ chunks.map chunkOf, chunk.length ≤ maxChunkSize := List.forall_mem_map.mpr hsize
  have hcut := cutChunks_length hchunks (show ([] : Bytes).length < 4 by decide) 0
  rwa [List.append_nil, ← bodyOf_eq_framed] at hcut

namespace BootstrapFile

variable {f : BootstrapFile} {chunks : List (List BlockPackage)}

/-- A file whose chunks may be read gives what their packages decode to, and no fault. -/
theorem contents_of_body {α : Type} {decode : Bytes → Except BootstrapError α} {view : BlockPackage → α}
    (hbody : f.body = bodyOf chunks)
    (hdecode : ∀ p ∈ chunks.flatten, decode (Codec.encode p) = .ok (view p))
    (hsize : ∀ ps ∈ chunks, (chunkOf ps).length ≤ maxChunkSize) :
    f.contents decode = { items := chunks.flatten.map view, chunks := chunks.length } := by
  rw [contents, hbody, cutChunks_bodyOf hsize]
  dsimp only
  rw [Contents.ofChunks_map_chunkOf hdecode hsize]

/-- The packages of a file whose chunks may be read are those of its chunks, and there is no fault. -/
theorem packages_of_body (hbody : f.body = bodyOf chunks) (hfits : ∀ p ∈ chunks.flatten, Codec.Fits p)
    (hsize : ∀ ps ∈ chunks, (chunkOf ps).length ≤ maxChunkSize) :
    f.packages.items = chunks.flatten ∧ f.packages.failure = none := by
  have hdecode (p : BlockPackage) (hp : p ∈ chunks.flatten) :
      readRecord BlockPackage (Codec.encode p) = .ok (id p) := readRecord_encode (hfits p hp)
  rw [packages, contents_of_body hbody hdecode hsize]
  exact ⟨List.map_id _, rfl⟩

/-- The packages of such a file are counted, whatever is in them. -/
theorem count_of_body (hbody : f.body = bodyOf chunks)
    (hsize : ∀ ps ∈ chunks, (chunkOf ps).length ≤ maxChunkSize) :
    f.count = .ok chunks.flatten.length := by
  rw [count, contents_of_body hbody (fun p _ => rfl) hsize, Contents.toExcept]
  dsimp only [Except.map]
  rw [List.length_map]

/-- Whether the bytes of a file read as these packages, without a fault. -/
def Carries (bytes : Bytes) (packages : List BlockPackage) : Prop :=
  ∃ f, read bytes = .ok f ∧ f.packages.items = packages ∧ f.packages.failure = none

/-- A header with chunks that may be read behind it carries their packages. -/
theorem carries_of_body {header : BootstrapHeader}
    (hheader : header.file.headerSize.toNat = BootstrapHeader.size)
    (hfits : ∀ p ∈ chunks.flatten, Codec.Fits p)
    (hsize : ∀ ps ∈ chunks, (chunkOf ps).length ≤ maxChunkSize) :
    Carries (header.encode ++ bodyOf chunks) chunks.flatten := by
  refine ⟨{ header, body := bodyOf chunks }, ?_, packages_of_body rfl hfits hsize⟩
  rw [read, BootstrapHeader.read_encode_append header hheader]
  rfl

end BootstrapFile

end RingDepth
