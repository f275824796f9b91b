import RingDepth.Proofs.Bootstrap.Export
import RingDepth.Proofs.Bootstrap.Session

/-!
# What is read of a written file

A writer makes a chunk of every hundred packages, whatever its size, and a reader refuses chunks above a
greatest size. So a file that a writer started and finished reads as the packages that were added exactly if
none of its chunks is above that size, and its packages are counted then.

A chunk can be so large that its length does not fit the four bytes in front of it. The reader then takes the
length that these bytes have room for, and what it cuts off may well be a chunk that consists of frames. But
such a chunk ends before the packages of the written one do, and the reader would take the length of the next
package for that of the next chunk. This package stands there without a length in front, so it is not read.
-/

namespace RingDepth

/-- The stored form of a package is no longer than the record from which it is read. -/
theorem length_encode_le_of_readRecord {record : Bytes} {p : BlockPackage}
    (h : readRecord BlockPackage record = .ok p) : (Codec.encode p).length ≤ record.length := by
  obtain ⟨-, rest, rfl⟩ := Codec.encode_of_read (mapError_eq_ok_iff.mp h)
  rw [List.length_append]
  omega

/-- The packages that are read from a chunk have stored forms whose lengths fit four bytes. -/
theorem length_encode_lt_of_ofChunk {chunk : Bytes} {ps : List BlockPackage}
    (h : Contents.ofChunk (readRecord BlockPackage) chunk = { items := ps }) :
    ∀ p ∈ ps, (Codec.encode p).length < 256 ^ 4 := by
  obtain ⟨records, -, hlength, hdecode⟩ := Contents.ofChunk_eq_iff.mp h
  intro p hp
  obtain ⟨i, hi, rfl⟩ := List.getElem_of_mem hp
  have hrecord := hdecode.get (hdecode.length_eq ▸ hi) hi
  exact Nat.lt_of_le_of_lt (length_encode_le_of_readRecord hrecord) (hlength _ (List.getElem_mem _))

/-- So have those that are read from chunks one after the other. -/
theorem length_encode_lt_of_mem_flatten {cs : List Bytes} {groups : List (List BlockPackage)}
    (hreads : List.Forall₂
      (fun chunk ps => Contents.ofChunk (readRecord BlockPackage) chunk = { items := ps }) cs groups)
    {p : BlockPackage} (hp : p ∈ groups.flatten) : (Codec.encode p).length < 256 ^ 4 := by
  induction hreads with
  | nil => cases hp
  | cons hchunk _ ih =>
    obtain hhere | hlater := List.mem_append.mp hp
    · exact length_encode_lt_of_ofChunk hchunk p hhere
    · exact ih hlater

/-- Frames from which the first of some packages are read, and which end before the chunk of these packages
does, end where the next package begins. -/
theorem exists_behind {records : List Bytes} {items ps others : List BlockPackage} {tail tail' : Bytes}
    (hdecode : List.Forall₂ (fun record p => readRecord BlockPackage record = .ok p) records items)
    (hrecords : ∀ record ∈ records, record.length < 256 ^ 4)
    (hps : ∀ p ∈ ps, (Codec.encode p).length < 256 ^ 4) (hfirst : items <+: ps ++ others)
    (hshorter : (framed records).length < (chunkOf ps).length)
    (h : framed records ++ tail = chunkOf ps ++ tail') :
    ∃ q qs, ps = items ++ q :: qs ∧ tail = frame (Codec.encode q) ++ (chunkOf qs ++ tail') := by
  -- On the frames: each is that of the next package, since both stand in front of the same bytes.
  induction hdecode generalizing ps with
  | nil =>
    cases ps with
    | nil => exact absurd hshorter (Nat.lt_irrefl 0)
    | cons q qs => exact ⟨q, qs, rfl, by rw [← List.append_assoc, ← chunkOf_cons, ← h]; rfl⟩
  | @cons record p records items _ _ ih =>
    obtain ⟨hrecord, hbehind⟩ := List.forall_mem_cons.mp hrecords
    cases ps with
    | nil => exact absurd hshorter (Nat.not_lt_zero _)
    | cons q qs =>
      obtain ⟨rfl, hrest⟩ := List.cons_prefix_cons.mp hfirst
      obtain ⟨hp, hqs⟩ := List.forall_mem_cons.mp hps
      rw [framed_cons, chunkOf_cons, List.append_assoc, List.append_assoc] at h
      have htake := congrArg takeFrame h
      rw [takeFrame_frame_append hrecord, takeFrame_frame_append hp] at htake
      obtain ⟨rfl, hothers⟩ := Prod.mk.inj (Except.ok.inj htake)
      rw [framed_cons, chunkOf_cons, List.length_append, List.length_append] at hshorter
      obtain ⟨q, qs, rfl, htail⟩ := ih hbehind hqs hrest (by omega) hothers
      exact ⟨q, qs, rfl, htail⟩

/-- If chunks begin where the frame of a package does, then the package is not the first that is read from
them: the first chunk would be the stored form of the package alone. -/
theorem not_reads_behind {cs : List Bytes} {groups : List (List BlockPackage)} {leftover tail : Bytes}
    {q : BlockPackage} {others : List BlockPackage} (hsize : ∀ chunk ∈ cs, chunk.length ≤ maxChunkSize)
    (hreads : List.Forall₂
      (fun chunk ps => Contents.ofChunk (readRecord BlockPackage) chunk = { items := ps }) cs groups)
    (hgroups : groups.flatten = q :: others) (hq : (Codec.encode q).length < 256 ^ 4)
    (h : framed cs ++ leftover = frame (Codec.encode q) ++ tail) : False := by
  cases hreads with
  | nil => cases hgroups
  | @cons chunk ps cs groups hchunk _ =>
    obtain ⟨hlength, -⟩ := List.forall_mem_cons.mp hsize
    rw [framed_cons, List.append_assoc] at h
    have htake := congrArg takeFrame h
    rw [takeFrame_frame_append (Nat.lt_of_le_of_lt hlength maxChunkSize_lt), takeFrame_frame_append hq]
      at htake
    obtain ⟨rfl, -⟩ := Prod.mk.inj (Except.ok.inj htake)
    obtain ⟨records, hframed, -, hdecode⟩ := Contents.ofChunk_eq_iff.mp hchunk
    have hpos := Codec.Sized.length_pos q
    cases hdecode with
    | nil =>
      rw [hframed] at hpos
      exact absurd hpos (Nat.lt_irrefl 0)
    | cons hrecord _ =>
      rw [List.flatten_cons, List.cons_append] at hgroups
      obtain ⟨rfl, -⟩ := List.cons.inj hgroups
      have hle := length_encode_le_of_readRecord hrecord
      have hlengths := congrArg List.length hframed
      rw [framed_cons, List.length_append, length_frame] at hlengths
      omega

/-- Chunks of packages from which these packages are read are not too large. -/
theorem size_of_reads {chunks : List (List BlockPackage)} {cs : List Bytes}
    {groups : List (List BlockPackage)} {leftover : Bytes} (hshort : leftover.length < 4)
    (hsize : ∀ chunk ∈ cs, chunk.length ≤ maxChunkSize)
    (hreads : List.Forall₂
      (fun chunk ps => Contents.ofChunk (readRecord BlockPackage) chunk = { items := ps }) cs groups)
    (hgroups : groups.flatten = chunks.flatten) (h : framed cs ++ leftover = bodyOf chunks) :
    ∀ ps ∈ chunks, (chunkOf ps).length ≤ maxChunkSize := by
  induction chunks generalizing cs groups with
  | nil => exact List.forall_mem_nil _
  | cons ps chunks ih =>
    rw [bodyOf_cons] at h
    cases hreads with
    | nil =>
      have hlengths := congrArg List.length h
      rw [framed_nil, List.nil_append, List.length_append, length_frame] at hlengths
      omega
    | @cons chunk items cs groups hchunk hothers =>
      obtain ⟨hlength, hsizes⟩ := List.forall_mem_cons.mp hsize
      have hchunklt := Nat.lt_of_le_of_lt hlength maxChunkSize_lt
      rw [framed_cons, List.append_assoc] at h
      have hall := hgroups
      rw [List.flatten_cons, List.flatten_cons] at hall
      by_cases hlt : (chunkOf ps).length < 256 ^ 4
      · -- The reader cuts off the chunk that was written, and goes on behind it.
        have htake := congrArg takeFrame h
        rw [takeFrame_frame_append hchunklt, takeFrame_frame_append hlt] at htake
        obtain ⟨rfl, hbody⟩ := Prod.mk.inj (Except.ok.inj htake)
        rw [ofChunk_readRecord_chunkOf hlength] at hchunk
        obtain rfl : ps = items := congrArg Contents.items hchunk
        exact List.forall_mem_cons.mpr
          ⟨hlength, ih hsizes hothers (List.append_cancel_left hall) hbody⟩
      · -- The reader cuts off less, and goes on before the package that comes next.
        exfalso
        have hdrop := congrArg (List.drop 4) h
        rw [drop_frame, drop_frame] at hdrop
        obtain ⟨records, rfl, hrecords, hdecode⟩ := Contents.ofChunk_eq_iff.mp hchunk
        have hps (p : BlockPackage) (hp : p ∈ ps) : (Codec.encode p).length < 256 ^ 4 := by
          apply length_encode_lt_of_mem_flatten (.cons hchunk hothers)
          rw [hgroups, List.flatten_cons]
          exact List.mem_append_left _ hp
        obtain ⟨q, qs, rfl, htail⟩ := exists_behind hdecode hrecords hps
          (hall ▸ List.prefix_append items groups.flatten) (by omega) hdrop
        rw [List.append_assoc, List.append_cancel_left_eq] at hall
        exact not_reads_behind hsizes hothers hall (hps q (by simp)) htail

namespace BootstrapFile

/-- A file whose body consists of the chunks of some packages is read as these packages exactly if the chunks
are not too large. -/
theorem items_eq_iff_of_body {f : BootstrapFile} {chunks : List (List BlockPackage)}
    (hbody : f.body = bodyOf chunks) :
    (f.packages.items = chunks.flatten ∧ f.packages.failure = none) ↔
      ∀ ps ∈ chunks, (chunkOf ps).length ≤ maxChunkSize := by
  constructor
  · rintro ⟨hitems, hfailure⟩
    rw [packages, contents] at hitems hfailure
    rcases hcut : cutChunks f.body.length 0 f.body with ⟨cs, failure⟩
    rw [hcut] at hitems hfailure
    obtain ⟨rfl, groups, hreads⟩ := Contents.exists_forall₂_of_ofChunks hfailure
    obtain ⟨leftover, hframed, hshort, hsize⟩ := eq_framed_append_of_cutChunks (Nat.le_refl _) hcut
    dsimp only at hitems
    rw [Contents.ofChunks_of_forall₂ hreads] at hitems
    exact size_of_reads hshort hsize hreads hitems (hframed.symm.trans hbody)
  · intro hsize
    refine packages_of_body hbody (fun p hp => ?_) hsize
    obtain ⟨ps, hps, hmem⟩ := List.mem_flatten.mp hp
    exact fits_of_chunkOf (hsize ps hps) hmem

/-- No chunk is cut off where one stands that is too large, as long as its length fits four bytes. -/
theorem cutChunks_of_tooLarge {chunk : Bytes} (hlarge : maxChunkSize < chunk.length)
    (hlt : chunk.length < 256 ^ 4) (fuel index : ℕ) (rest : Bytes) :
    cutChunks (fuel + 1) index (frame chunk ++ rest) = ([], some (.chunkTooLarge chunk.length)) := by
  have hprefix : ¬(frame chunk ++ rest).length < 4 := by
    rw [List.length_append, length_frame]
    omega
  rw [cutChunks]
  simp only [ofLittleEndian_take_frame hlt, if_neg hprefix, if_pos hlarge]

/-- A file is read up to the first chunk that is too large, and the fault names its size, as long as it fits
four bytes. -/
theorem contents_of_tooLarge {α : Type} {decode : Bytes → Except BootstrapError α} {view : BlockPackage → α}
    {f : BootstrapFile} {front back : List (List BlockPackage)} {large : List BlockPackage}
    (hbody : f.body = bodyOf (front ++ large :: back))
    (hdecode : ∀ p ∈ front.flatten, decode (Codec.encode p) = .ok (view p))
    (hsize : ∀ ps ∈ front, (chunkOf ps).length ≤ maxChunkSize)
    (hlarge : maxChunkSize < (chunkOf large).length) (hlt : (chunkOf large).length < 256 ^ 4) :
    f.contents decode = { items := front.flatten.map view
                          failure := some (.chunkTooLarge (chunkOf large).length)
                          chunks := front.length } := by
  have hparts : f.body = framed (front.map chunkOf) ++ (frame (chunkOf large) ++ bodyOf back) := by
    rw [hbody, ← bodyOf_eq_framed, ← bodyOf_cons, bodyOf, bodyOf, bodyOf, List.flatMap_append]
  obtain ⟨fuel, hfuel⟩ : ∃ fuel, f.body.length = (front.map chunkOf).length + 1 + fuel := by
    have hframes := length_le_framed (front.map chunkOf)
    refine Nat.exists_eq_add_of_le ?_
    rw [hparts, List.length_append, List.length_append, length_frame]
    omega
  rw [Nat.add_assoc, Nat.add_comm 1] at hfuel
  rw [contents, hfuel, hparts, cutChunks_framed_append (List.forall_mem_map.mpr hsize),
    cutChunks_of_tooLarge hlarge hlt]
  dsimp only
  rw [List.append_nil, Contents.ofChunks_map_chunkOf hdecode hsize]

end BootstrapFile

namespace BootstrapWriter

variable {t t' : FileTree} {path : String} {start last : UInt64} {packages : List BlockPackage}

/-- The file that a session started reads as the packages that were added and ends there, and they are counted
from the height that was named first, exactly if no chunk of a hundred of them is above the greatest size that
is read. -/
theorem addAt_reads_iff {result : UInt64 × UInt64 × ℕ} (hpath : FreshPath t path)
    (hadd : addAt t path start last packages = (t', .ok result)) :
    ((∃ f, BootstrapFile.readAt t' path = .ok f ∧ f.packages.items = packages ∧ f.packages.failure = none) ∧
      BootstrapFile.countBlocksAt t' path = .ok (packages.length, start)) ↔ HundredsFit packages := by
  have hleft : LeftAt t path none := hpath
  have hkeeps := addAt_eq_ok hleft hadd
  have hread := read_started start last (bodyOf (hundreds packages))
  have hitems := BootstrapFile.items_eq_iff_of_body
    (f := .started start last (bodyOf (hundreds packages))) rfl
  rw [flatten_hundreds, ← hundredsFit_iff] at hitems
  rw [hkeeps.readAt, hkeeps.countBlocksAt, hread, ← hitems]
  constructor
  · rintro ⟨⟨f, hf, hpackages⟩, -⟩
    obtain rfl := Except.ok.inj hf
    exact hpackages
  · intro hpackages
    have hcount := BootstrapFile.count_of_body (f := .started start last (bodyOf (hundreds packages))) rfl
      (hundredsFit_iff.mp (hitems.mp hpackages))
    rw [flatten_hundreds] at hcount
    exact ⟨⟨_, rfl, hpackages⟩, bind_eq_ok_iff.mpr ⟨_, hread, bind_eq_ok_iff.mpr ⟨_, hcount, rfl⟩⟩⟩

/-- The packages of two blocks are read from the file to which they were written. -/
theorem addAt_reads_twoPackages :
    FreshPath {} "chain.dat" ∧ HundredsFit [lower.package, upper.package] ∧
    ∃ t', addAt {} "chain.dat" 0 1 [lower.package, upper.package] = (t', .ok (0, 2, 2)) ∧
      (∃ f, BootstrapFile.readAt t' "chain.dat" = .ok f ∧
        f.packages.items = [lower.package, upper.package] ∧ f.packages.failure = none) ∧
      BootstrapFile.countBlocksAt t' "chain.dat" = .ok (2, 0) := by
  have hfit : HundredsFit [lower.package, upper.package] := (RunsFit.of_length (by decide +kernel)).hundredsFit
  have hresult : (addAt {} "chain.dat" 0 1 [lower.package, upper.package]).2 = .ok (0, 2, 2) := by
    decide +kernel
  have hadd : addAt {} "chain.dat" 0 1 [lower.package, upper.package] = (_, .ok (0, 2, 2)) :=
    Prod.ext rfl hresult
  exact ⟨.empty, hfit, _, hadd, (addAt_reads_iff .empty hadd).mpr hfit⟩

/-- A package whose block lists so many hashes that twelve of it are too large for a chunk. -/
def bulky : BlockPackage where
  block := (blockOf 0 .zero (List.replicate 174758 .zero)).toRecord
  transactions := []

/-- Twelve of it make a chunk of this size. -/
theorem length_chunkOf_bulky : (chunkOf (List.replicate 12 bulky)).length = 67108884 := by
  have hreward : (Codec.encode bulky.block.rewardTx).length = 85 := by decide +kernel
  have hhashes : bulky.block.txHashes.length = 174758 := List.length_replicate
  have htransactions : (Codec.encode bulky.transactions).length = 8 := by decide +kernel
  rw [chunkOf, List.length_flatMap, List.map_replicate, List.sum_replicate_nat, BlockPackage.framed,
    length_frame, bulky.length_encode, hreward, hhashes, htransactions]

/-- Packages that are too large for the one chunk into which they go are written without a fault, and then
neither read nor counted, as long as the length of the chunk fits four bytes. -/
theorem addAt_of_tooLarge (hpath : FreshPath t path) (hsome : packages ≠ [])
    (hroom : packages.length < packagesPerChunk) (hnext : start.toNat + packages.length < UInt64.size)
    (hlarge : maxChunkSize < (chunkOf packages).length) (hlt : (chunkOf packages).length < 256 ^ 4)
    (last : UInt64) :
    ∃ t' after, addAt t path start last packages = (t', .ok (start, after, packages.length)) ∧
      after.toNat = start.toNat + packages.length ∧
      (∃ f, BootstrapFile.readAt t' path = .ok f ∧ f.packages.items = [] ∧
        f.packages.failure = some (.chunkTooLarge (chunkOf packages).length)) ∧
      BootstrapFile.countBlocksAt t' path = .error (.chunkTooLarge (chunkOf packages).length) := by
  have hleft : LeftAt t path none := hpath
  obtain ⟨t₁, hopen, -⟩ := hpath.openAt start last
  obtain ⟨w, -, -, happend, -, -, hheight, hwritten⟩ :=
    exists_appendAll (Filling.nil (w := create start last) rfl rfl) packages hnext
  have hadd : addAt t path start last packages =
      (w.flush.saveAt t₁ path, .ok (start, w.nextHeight, packages.length)) := by
    have hcounted : w.written = packages.length := hwritten.trans (Nat.zero_add _)
    rw [addAt, hopen]
    simp only [happend, hcounted]
    rfl
  have hkeeps := addAt_eq_ok hleft hadd
  have hread := read_started start last (bodyOf (hundreds packages))
  have hbody : (BootstrapFile.started start last (bodyOf (hundreds packages))).body =
      bodyOf ([] ++ packages :: []) := congrArg bodyOf (hundreds_of_lt hsome hroom)
  have hcontents {α : Type} (decode : Bytes → Except BootstrapError α) (view : BlockPackage → α) :
      BootstrapFile.contents decode (.started start last (bodyOf (hundreds packages))) =
        { items := [].map view, failure := some (.chunkTooLarge (chunkOf packages).length), chunks := 0 } :=
    BootstrapFile.contents_of_tooLarge hbody (List.forall_mem_nil _) (List.forall_mem_nil _) hlarge hlt
  refine ⟨_, _, hadd, hheight, ⟨_, hkeeps.readAt.trans hread, ?_⟩, ?_⟩
  · rw [BootstrapFile.packages, hcontents _ id]
    exact ⟨rfl, rfl⟩
  · rw [hkeeps.countBlocksAt, BootstrapFile.countBlocks, hread]
    simp only [bind, Except.bind, BootstrapFile.count, hcontents _ Codec.encode, Contents.toExcept, Except.map]

/-- Twelve packages whose blocks list many hashes are such packages. -/
theorem not_reads_bulky :
    FreshPath {} "chain.dat" ∧
    ∃ t', addAt {} "chain.dat" 0 0 (List.replicate 12 bulky) = (t', .ok (0, 12, 12)) ∧
      (∃ f, BootstrapFile.readAt t' "chain.dat" = .ok f ∧ f.packages.items = [] ∧
        f.packages.failure = some (.chunkTooLarge 67108884)) ∧
      BootstrapFile.countBlocksAt t' "chain.dat" = .error (.chunkTooLarge 67108884) := by
  have hlength : (List.replicate 12 bulky).length = 12 := List.length_replicate
  have hsome : List.replicate 12 bulky ≠ [] := List.ne_nil_of_length_pos (hlength ▸ Nat.succ_pos 11)
  have hrefused := @addAt_of_tooLarge {} "chain.dat" 0 _ .empty hsome
  rw [length_chunkOf_bulky, hlength] at hrefused
  obtain ⟨t', after, hadd, hafter, hread, hcount⟩ :=
    hrefused (by decide) (by decide) (by decide) (by decide) 0
  obtain rfl : after = 12 := UInt64.toNat_inj.mp hafter
  exact ⟨.empty, t', hadd, hread, hcount⟩

end BootstrapWriter

end RingDepth
