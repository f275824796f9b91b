import RingDepth.Proofs.Bootstrap.Export
import RingDepth.Proofs.Bootstrap.Filling
import RingDepth.Proofs.Bootstrap.Layout
import RingDepth.Proofs.Bootstrap.Opening
import RingDepth.Proofs.Bootstrap.Shift

/-!
# Going on with a file

A writer goes on with every file whose frames are counted, and writes behind the last byte of it. The reader
does not look at up to three bytes that may stand behind the last chunk. If there are any, then they come
before the first new chunk and are read as the beginning of its length, so the file is spoilt. If there are
none, then the new packages come behind the old frames.
-/

namespace RingDepth

/-- The frames of a file with more packages behind it, if nothing is left over between. -/
theorem BootstrapFile.LaidOut.frames_extend {f : BootstrapFile} {groups : List (List Bytes)}
    (h : f.LaidOut groups []) {chunks : List (List BlockPackage)}
    (hsize : ∀ ps ∈ chunks, (chunkOf ps).length ≤ maxChunkSize) :
    (f.extend (bodyOf chunks)).frames = .ok (groups.flatten ++ chunks.flatten.map Codec.encode) := by
  have hmap : chunks.map chunkOf = (chunks.map (List.map Codec.encode)).map framed := by
    rw [List.map_map]
    exact List.map_congr_left fun ps _ => chunkOf_eq_framed ps
  have hfits : ∀ records ∈ chunks.map (List.map Codec.encode), (framed records).length ≤ maxChunkSize := by
    rw [List.forall_mem_map]
    exact fun ps hps => chunkOf_eq_framed ps ▸ hsize ps hps
  have hlaid := h.extend_framed hfits
  rw [← hmap, ← bodyOf_eq_framed] at hlaid
  rw [hlaid.frames_eq, List.flatten_append, List.map_flatten]

/-- Chunks in which there is a frame begin with the first one, behind the lengths of its chunk and of the
empty chunks before. -/
theorem exists_first_frame {groups : List (List Bytes)} {record : Bytes} {records : List Bytes}
    (h : groups.flatten = record :: records) (tail : Bytes) :
    ∃ empty size more, framed (groups.map framed) ++ tail =
      List.replicate (4 * empty) 0 ++ (Bytes.littleEndian 4 size ++ (frame record ++ more)) := by
  induction groups with
  | nil => cases h
  | cons group groups ih =>
    rw [List.map_cons, framed_cons, List.append_assoc]
    cases group with
    | nil =>
      obtain ⟨empty, size, more, hmore⟩ := ih h
      refine ⟨empty + 1, size, more, ?_⟩
      rw [hmore, ← List.append_assoc, Nat.mul_succ, Nat.add_comm, List.replicate_add]
      rfl
    | cons first group =>
      obtain ⟨rfl, -⟩ := List.cons.inj h
      refine ⟨0, (framed (first :: group)).length, framed group ++ (framed (groups.map framed) ++ tail), ?_⟩
      rw [frame, List.append_assoc, framed_cons, List.append_assoc]
      rfl

namespace BootstrapFile

variable {f : BootstrapFile} {groups : List (List Bytes)} {leftover : Bytes}

/-- If something is left over, then the packages of chunks that come behind it are not read. -/
theorem LaidOut.frames_extend_ne (h : f.LaidOut groups leftover) (hsome : leftover ≠ [])
    {p : BlockPackage} {ps : List BlockPackage} {chunks : List (List BlockPackage)}
    (hsize : ∀ chunk ∈ (p :: ps) :: chunks, (chunkOf chunk).length ≤ maxChunkSize) :
    (f.extend (bodyOf ((p :: ps) :: chunks))).frames ≠
      .ok (groups.flatten ++ ((p :: ps) :: chunks).flatten.map Codec.encode) := by
  intro hframes
  obtain ⟨groups', hlaid, hflatten⟩ := frames_eq_ok_iff.mp hframes
  generalize (f.extend (bodyOf ((p :: ps) :: chunks))).leftover = leftover' at hlaid
  have hbody := hlaid.body
  rw [extend, h.body, List.append_assoc] at hbody
  obtain ⟨more, hmore, htail⟩ := exists_append_of_framed_append_eq
    (fun chunk hchunk => Nat.lt_of_le_of_lt (h.size_map chunk hchunk) maxChunkSize_lt)
    (fun chunk hchunk => Nat.lt_of_le_of_lt (hlaid.size_map chunk hchunk) maxChunkSize_lt) hlaid.short hbody
  obtain ⟨old, new, rfl, hold, rfl⟩ := List.map_eq_append_iff.mp hmore
  -- The old chunks are read as before, so the new frames are those of the other chunks.
  have hsame : old.flatten = groups.flatten := by
    have hread := Contents.ofChunks_of_forall₂ (Contents.forall₂_ofChunk_framed
      fun records hrecords => hlaid.size records (List.mem_append_left _ hrecords))
    rw [hold, Contents.ofChunks_of_forall₂ (Contents.forall₂_ofChunk_framed h.size)] at hread
    exact (congrArg Contents.items hread).symm
  rw [List.flatten_append, hsame, List.append_cancel_left_eq, List.flatten_cons, List.cons_append,
    List.map_cons] at hflatten
  obtain ⟨empty, size, rest, hfirst⟩ := exists_first_frame hflatten leftover'
  rw [hfirst, bodyOf_cons, frame, List.append_assoc, chunkOf_cons, List.append_assoc, ← chunkOf_cons] at htail
  have hchunk := hsize (p :: ps) List.mem_cons_self
  have hlength : (chunkOf (p :: ps)).length = 4 + (Codec.encode p).length + (chunkOf ps).length := by
    rw [chunkOf_cons, List.length_append, length_frame]
  have hmax := maxChunkSize_lt
  exact shifted_ne (by omega) hsome h.short (by omega) (by omega) size empty _ rest htail

/-- Whether a file reads as another one with some packages behind it, and is counted so. -/
structure ExtendedBy (bytes bytes' : Bytes) (packages : List BlockPackage) : Prop where
  frames : ∃ f f' records, read bytes = .ok f ∧ read bytes' = .ok f' ∧ f.frames = .ok records ∧
    f'.frames = .ok (records ++ packages.map Codec.encode)
  counted : ∀ n first, countBlocks bytes = .ok (n, first) →
    countBlocks bytes' = .ok (n + packages.length, first)

/-- Whether the bytes of a file stay where they are, and its frames are the first that are read, whether those
behind them are or not. -/
structure KeptIn (bytes bytes' : Bytes) : Prop where
  stay : bytes <+: bytes'
  frames : ∃ f f' records, read bytes = .ok f ∧ read bytes' = .ok f' ∧ f'.header = f.header ∧
    f.frames = .ok records ∧ records <+: (f'.contents Except.ok).items

/-- The frames of the file are the first that are read, whatever is put behind it. -/
theorem LaidOut.keptIn {bytes : Bytes} (h : f.LaidOut groups leftover) (hread : read bytes = .ok f)
    (more : Bytes) : KeptIn bytes (bytes ++ more) where
  stay := List.prefix_append _ _
  frames := ⟨f, f.extend more, groups.flatten, hread, read_append hread more, rfl, h.frames_eq,
    h.frames_prefix more⟩

/-- A file whose chunks are put behind those of another one is extended by their packages exactly if nothing
is left over between, or there is no chunk. -/
theorem LaidOut.extendedBy_iff {bytes : Bytes} (h : f.LaidOut groups leftover) (hread : read bytes = .ok f)
    {chunks : List (List BlockPackage)} (hsome : ∀ chunk ∈ chunks, chunk ≠ [])
    (hsize : ∀ chunk ∈ chunks, (chunkOf chunk).length ≤ maxChunkSize) :
    ExtendedBy bytes (bytes ++ bodyOf chunks) chunks.flatten ↔ leftover = [] ∨ chunks.flatten = [] := by
  have hread' := read_append hread (bodyOf chunks)
  constructor
  · rintro ⟨⟨g, g', records, hg, hg', hrecords, hframes⟩, -⟩
    obtain rfl := Except.ok.inj (hread.symm.trans hg)
    obtain rfl := Except.ok.inj (hread'.symm.trans hg')
    obtain rfl := Except.ok.inj (h.frames_eq.symm.trans hrecords)
    cases chunks with
    | nil => exact .inr rfl
    | cons chunk chunks =>
      cases chunk with
      | nil => exact absurd rfl (hsome [] List.mem_cons_self)
      | cons p ps => exact .inl (by_contra fun hleft => h.frames_extend_ne hleft hsize hframes)
  · intro hgoes
    have hframes : (f.extend (bodyOf chunks)).frames =
        .ok (groups.flatten ++ chunks.flatten.map Codec.encode) := by
      obtain rfl | hnone := hgoes
      · exact h.frames_extend hsize
      · -- There is no chunk, since each would hold a package.
        obtain rfl : chunks = [] := List.eq_nil_iff_forall_not_mem.mpr fun chunk hchunk =>
          hsome chunk hchunk (List.flatten_eq_nil_iff.mp hnone chunk hchunk)
        rw [bodyOf, List.flatMap_nil, extend, List.append_nil]
        exact h.frames_eq.trans (congrArg Except.ok (List.append_nil _).symm)
    refine ⟨⟨f, _, _, hread, hread', h.frames_eq, hframes⟩, fun n first hcount => ?_⟩
    obtain ⟨g, records, hg, hfirst, hrecords, hlength⟩ := countBlocks_eq_ok_iff.mp hcount
    obtain rfl := Except.ok.inj (hread.symm.trans hg)
    obtain rfl := Except.ok.inj (h.frames_eq.symm.trans hrecords)
    refine countBlocks_eq_ok_iff.mpr ⟨_, _, hread', hfirst, hframes, ?_⟩
    rw [List.length_append, List.length_map, hlength]

end BootstrapFile

namespace BootstrapWriter

/-- Packages are added to every file whose frames are counted, if the height behind them can be counted and
their chunks may be read. What was in the file stays and is read first. The packages are read behind it
exactly if nothing was left over behind the last chunk, or there are none. -/
theorem addAt_keeps {t : FileTree} {path : String} {bytes : Bytes} {f : BootstrapFile} {n : ℕ} {first : UInt64}
    (hkeeps : KeepsAt t path bytes) (hread : BootstrapFile.read bytes = .ok f)
    (hcount : BootstrapFile.countBlocks bytes = .ok (n, first)) {packages : List BlockPackage}
    (hroom : first.toNat + n + packages.length < UInt64.size) (hfit : HundredsFit packages)
    (start last : UInt64) :
    ∃ t' bytes' before after, addAt t path start last packages = (t', .ok (before, after, packages.length)) ∧
      before.toNat = first.toNat + n ∧ after.toNat = first.toNat + n + packages.length ∧
      KeepsAt t' path bytes' ∧ BootstrapFile.KeptIn bytes bytes' ∧
      (BootstrapFile.ExtendedBy bytes bytes' packages ↔ f.leftover = [] ∨ packages = []) := by
  obtain ⟨g, records, hg, hfirst, hrecords, hlength⟩ := BootstrapFile.countBlocks_eq_ok_iff.mp hcount
  obtain rfl := Except.ok.inj (hread.symm.trans hg)
  obtain ⟨groups, hlaid, -⟩ := BootstrapFile.frames_eq_ok_iff.mp hrecords
  have hcounted : (UInt64.ofNat n).toNat = n := UInt64.toNat_ofNat_of_lt' (by omega)
  obtain ⟨before, hbefore⟩ := exists_addCounter (ε := BootstrapError) (a := first) (b := UInt64.ofNat n)
    (by omega)
  have hresume : resume bytes = .ok { file := bytes, nextHeight := before } :=
    bind_eq_ok_iff.mpr ⟨_, monadLift_eq_ok_iff.mpr hcount, bind_eq_ok_iff.mpr ⟨before, hbefore, rfl⟩⟩
  rw [addCounter_eq_ok_iff, hcounted] at hbefore
  obtain ⟨w, chunks, waiting, happend, hfilling, hpackages, hnext, hwritten⟩ :=
    exists_appendAll (Filling.nil (w := { file := bytes, nextHeight := before }) rfl rfl) packages
      (by rw [hbefore]; omega)
  rw [List.flatten_nil, List.nil_append, List.nil_append] at hpackages
  obtain ⟨chunks', hfile, hflatten, hchunks⟩ := hfilling.flush
  rw [hpackages] at hflatten hchunks
  have hsize : ∀ chunk ∈ chunks', (chunkOf chunk).length ≤ maxChunkSize := by
    intro chunk hchunk
    obtain ⟨-, number, rfl⟩ := hchunks chunk hchunk
    exact hfit number
  have hextended := hlaid.extendedBy_iff hread (fun chunk hchunk => (hchunks chunk hchunk).1) hsize
  rw [hflatten, ← hfile] at hextended
  refine ⟨_, w.flush.file, before, w.nextHeight, ?_, hbefore, ?_, hkeeps.saveBytes _, ?_, hextended⟩
  · rw [addAt, hkeeps.openAt, hresume]
    simp only [happend, hwritten, Nat.zero_add]
    rfl
  · rw [hnext, hbefore]
  · rw [hfile]
    exact hlaid.keptIn hread _

/-- A file with the package of one block. -/
def lowerFile : Bytes := (create 0 0).file ++ bodyOf [[lower.package]]

/-- The package of the next block comes behind it. -/
theorem addAt_keeps_lowerFile :
    BootstrapFile.countBlocks lowerFile = .ok (1, 0) ∧ HundredsFit [upper.package] ∧
    ∃ t' bytes', addAt (treeWith lowerFile) "chain.dat" 0 0 [upper.package] = (t', .ok (1, 2, 1)) ∧
      KeepsAt t' "chain.dat" bytes' ∧ BootstrapFile.ExtendedBy lowerFile bytes' [upper.package] := by
  have hcount : BootstrapFile.countBlocks lowerFile = .ok (1, 0) := by decide +kernel
  have hfit : HundredsFit [upper.package] := (RunsFit.of_length (by decide +kernel)).hundredsFit
  have hread : BootstrapFile.read lowerFile = .ok
      { header := { file := {}, blocks := { first := 0, last := 0 } }, body := bodyOf [[lower.package]] } :=
    map_eq_ok_iff.mpr ⟨_, BootstrapHeader.read_encode_append _ rfl _, rfl⟩
  obtain ⟨t', bytes', before, after, hadd, hbefore, hafter, hkeeps, -, hextended⟩ :=
    addAt_keeps (keepsAt_treeWith lowerFile) hread hcount (by decide +kernel) hfit 0 0
  obtain rfl : before = 1 := UInt64.toNat_inj.mp hbefore
  obtain rfl : after = 2 := UInt64.toNat_inj.mp hafter
  exact ⟨hcount, hfit, t', bytes', hadd, hkeeps, hextended.mpr (.inl (by decide +kernel))⟩

/-- With one byte behind it, the package of the next block makes it unreadable. -/
theorem not_extended_strayByte :
    KeepsAt (treeWith (lowerFile ++ [0])) "chain.dat" (lowerFile ++ [0]) ∧
    BootstrapFile.countBlocks (lowerFile ++ [0]) = .ok (1, 0) ∧ HundredsFit [upper.package] ∧
    (addAt (treeWith (lowerFile ++ [0])) "chain.dat" 0 0 [upper.package]).2 = .ok (1, 2, 1) ∧
    BootstrapFile.countBlocksAt (addAt (treeWith (lowerFile ++ [0])) "chain.dat" 0 0 [upper.package]).1
      "chain.dat" ≠ .ok (2, 0) :=
  ⟨keepsAt_treeWith _, by decide +kernel, (RunsFit.of_length (by decide +kernel)).hundredsFit,
    by decide +kernel, by decide +kernel⟩

end BootstrapWriter

end RingDepth
