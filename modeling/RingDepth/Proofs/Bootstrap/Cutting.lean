import RingDepth.Proofs.Bootstrap.Export
import RingDepth.Proofs.Bootstrap.Session

/-!
# Files that were cut

A whole file that loses some of its last bytes is read up to the place of the cut. If this is in the magic
number or in the header, then the file is not opened. If it is in a chunk, then the chunks before it are read,
and then the file is found to be truncated. But if it is in the length of a chunk, then the one to three bytes
that are left of the length are not looked at: the chunks before them are read, and no fault is found, as if
the file had been cut between two chunks.
-/

namespace RingDepth

namespace BootstrapHeader

variable {bs rest : Bytes} {header : BootstrapHeader} {n : ℕ}

/-- Where a header ends. -/
def headerEnd : ℕ := 4 + size

/-- The body of a file comes behind its header. -/
theorem length_of_read (h : read bs = .ok (header, rest)) : bs.length = headerEnd + rest.length := by
  obtain ⟨hfour, -, hsize, -, rfl⟩ := read_eq_ok_iff.mp h
  rw [List.length_drop] at hsize
  rw [headerEnd, List.length_drop, List.length_drop]
  omega

/-- A header is not read from less than four bytes. -/
theorem read_of_length_lt (h : bs.length < 4) : read bs = .error (.truncated .magic) := by
  rw [read, if_pos h]
  rfl

/-- A header that is cut is truncated. -/
theorem read_take_of_lt (h : read bs = .ok (header, rest)) (hstart : 4 ≤ n) (hn : n < headerEnd) :
    read (bs.take n) = .error (.truncated .header) := by
  obtain ⟨hfour, hmagic, -, -, -⟩ := read_eq_ok_iff.mp h
  have hlength : ¬(bs.take n).length < 4 := by
    rw [List.length_take]
    omega
  have hshort : ((bs.take n).drop 4).length < size := by
    rw [headerEnd] at hn
    rw [List.length_drop, List.length_take]
    omega
  rw [read, if_neg hlength]
  simp only [List.take_take, Nat.min_eq_left hstart, hmagic, ne_eq, not_true_eq_false, if_false, if_pos hshort]
  rfl

/-- A header behind which something is cut off is left with what remains. -/
theorem read_take_of_le (h : read bs = .ok (header, rest)) (hn : headerEnd ≤ n) :
    read (bs.take n) = .ok (header, rest.take (n - headerEnd)) := by
  obtain ⟨hfour, hmagic, hsize, hrecords, rfl⟩ := read_eq_ok_iff.mp h
  rw [headerEnd] at hn
  rw [List.length_drop] at hsize
  have hdrop : (bs.take n).drop 4 = (bs.drop 4).take (n - 4) := List.drop_take ..
  refine read_eq_ok_iff.mpr ⟨?_, ?_, ?_, ?_, ?_⟩
  · rw [List.length_take]
    omega
  · rwa [List.take_take, Nat.min_eq_left (by omega)]
  · rw [hdrop, List.length_take, List.length_drop]
    omega
  · rwa [hdrop, List.take_take, Nat.min_eq_left (by omega)]
  · rw [hdrop, List.drop_take, headerEnd, Nat.sub_sub]

end BootstrapHeader

/-- A place before the end of framed chunks is in one of them, or in front of it. -/
theorem exists_cut_chunk {chunks : List Bytes} {m : ℕ} (h : m < (framed chunks).length) :
    ∃ front chunk back r, chunks = front ++ chunk :: back ∧ m = (framed front).length + r ∧
      r < (frame chunk).length := by
  induction chunks generalizing m with
  | nil => exact absurd h (Nat.not_lt_zero m)
  | cons chunk chunks ih =>
    by_cases hm : m < (frame chunk).length
    · exact ⟨[], chunk, chunks, m, rfl, (Nat.zero_add m).symm, hm⟩
    · rw [framed_cons, List.length_append] at h
      obtain ⟨front, other, back, r, rfl, hr, hlt⟩ := ih (m := m - (frame chunk).length) (by omega)
      refine ⟨chunk :: front, other, back, r, rfl, ?_, hlt⟩
      rw [framed_cons, List.length_append]
      omega

/-- A chunk that is cut behind its length is truncated. -/
theorem cutChunks_take_frame {chunk : Bytes} (hsize : chunk.length ≤ maxChunkSize) {r : ℕ} (hlength : 4 ≤ r)
    (hcut : r < (frame chunk).length) (fuel index : ℕ) :
    cutChunks (fuel + 1) index ((frame chunk).take r) = ([], some (.truncated (.chunk index))) := by
  rw [length_frame] at hcut
  have hstated : Bytes.ofLittleEndian (((frame chunk).take r).take 4) = chunk.length := by
    have hframe := ofLittleEndian_take_frame (Nat.lt_of_le_of_lt hsize maxChunkSize_lt) []
    rw [List.append_nil] at hframe
    rw [List.take_take, Nat.min_eq_left hlength, hframe]
  have hprefix : ¬((frame chunk).take r).length < 4 := by
    rw [List.length_take, length_frame]
    omega
  have hshort : (((frame chunk).take r).drop 4).length < chunk.length := by
    rw [List.length_drop, List.length_take, length_frame]
    omega
  rw [cutChunks]
  simp only [hstated, if_neg hprefix, if_neg (Nat.not_lt.mpr hsize), if_pos hshort]

/-- Framed chunks, the last of which is cut, are cut into those before it. Unless less than four bytes are left
of it, it is found to be truncated. -/
theorem cutChunks_framed_append_take {front : List Bytes} {chunk : Bytes}
    (hfront : ∀ other ∈ front, other.length ≤ maxChunkSize) (hsize : chunk.length ≤ maxChunkSize) {r : ℕ}
    (hcut : r < (frame chunk).length) :
    cutChunks (framed front ++ (frame chunk).take r).length 0 (framed front ++ (frame chunk).take r) =
      (front, if r < 4 then none else some (.truncated (.chunk front.length))) := by
  have hframes := length_le_framed front
  have hlength : ((frame chunk).take r).length = r := by
    rw [List.length_take, Nat.min_eq_left (Nat.le_of_lt hcut)]
  split
  · rename_i hshort
    exact cutChunks_length hfront (hlength.trans_lt hshort) 0
  · rename_i hlong
    obtain ⟨fuel, hfuel⟩ : ∃ fuel, (framed front ++ (frame chunk).take r).length = front.length + 1 + fuel :=
      Nat.exists_eq_add_of_le (by rw [List.length_append]; omega)
    rw [Nat.add_assoc, Nat.add_comm 1] at hfuel
    rw [hfuel, cutChunks_framed_append hfront, cutChunks_take_frame hsize (Nat.not_lt.mp hlong) hcut,
      List.append_nil, Nat.zero_add]

namespace BootstrapFile

variable {f : BootstrapFile} {bytes : Bytes} {n : ℕ}

/-- Where the first chunks of a file end, counted from the beginning of the file. -/
def chunkEnd (f : BootstrapFile) (k : ℕ) : ℕ := BootstrapHeader.headerEnd + (framed (f.chunks.take k)).length

/-- What comes of reading a file that was cut behind some of its bytes. -/
inductive CutReads (f : BootstrapFile) (n : ℕ) : Except BootstrapError (Contents BlockPackage) → Prop
  /-- A cut in the magic number is found when the file is opened. -/
  | inMagic (hcut : n < 4) : CutReads f n (.error (.truncated .magic))
  | inHeader (hstart : 4 ≤ n) (hcut : n < BootstrapHeader.headerEnd) : CutReads f n (.error (.truncated .header))
  /-- A cut in a chunk is found when the packages of the chunks before it were read. -/
  | inChunk {k : ℕ} (hchunk : k < f.chunks.length) (hstart : f.chunkEnd k + 4 ≤ n)
      (hcut : n < f.chunkEnd (k + 1)) :
      CutReads f n (.ok { items := (f.groups.take k).flatten
                          failure := some (.truncated (.chunk k))
                          chunks := k })
  /-- One between two chunks or in the length of a chunk is not found. -/
  | beforeChunk {k : ℕ} (hchunk : k < f.chunks.length) (hstart : f.chunkEnd k ≤ n)
      (hcut : n < f.chunkEnd k + 4) :
      CutReads f n (.ok { items := (f.groups.take k).flatten, chunks := k })

/-- A file that is put together of chunks and loses some of the last bytes of its body is read up to the chunk
in which the cut is, or before which it is. -/
theorem Composed.packages_take {chunks : List Bytes} {groups : List (List BlockPackage)}
    (h : f.Composed chunks groups) {m : ℕ} (hm : m < f.body.length) :
    ∃ k r, k < chunks.length ∧ m = (framed (chunks.take k)).length + r ∧
      m < (framed (chunks.take (k + 1))).length ∧
      packages { f with body := f.body.take m } =
        { items := (groups.take k).flatten
          failure := if r < 4 then none else some (.truncated (.chunk k))
          chunks := k } := by
  rw [h.body] at hm
  obtain ⟨front, chunk, back, r, rfl, rfl, hcut⟩ := exists_cut_chunk hm
  obtain ⟨hfront, hback⟩ := List.forall_mem_append.mp h.size
  obtain ⟨hsize, -⟩ := List.forall_mem_cons.mp hback
  have hreads := List.forall₂_take front.length h.reads
  rw [List.take_left] at hreads
  have htake : f.body.take ((framed front).length + r) = framed front ++ (frame chunk).take r := by
    rw [h.body, framed_append, framed_cons, List.take_length_add_append,
      List.take_append_of_le_length (Nat.le_of_lt hcut)]
  refine ⟨front.length, r, ?_, ?_, ?_, ?_⟩
  · rw [List.length_append, List.length_cons]
    omega
  · rw [List.take_left]
  · rw [List.take_length_add_append, List.take_succ_cons, List.take_zero, framed_append, framed_cons,
      List.length_append, List.length_append]
    omega
  · rw [packages, contents]
    dsimp only
    rw [htake, cutChunks_framed_append_take hfront hsize hcut]
    exact Contents.ofChunks_eq_of_forall₂ hreads _

/-- The header and the body of a file are read from its bytes. -/
theorem header_of_read (h : read bytes = .ok f) : BootstrapHeader.read bytes = .ok (f.header, f.body) := by
  obtain ⟨⟨header, body⟩, hheader, rfl⟩ := map_eq_ok_iff.mp h
  exact hheader

/-- A whole file that is cut is read up to the place of the cut. -/
theorem Whole.cutReads (h : f.Whole) (hread : read bytes = .ok f) (hn : n < bytes.length) :
    CutReads f n ((read (bytes.take n)).map packages) := by
  have hheader := header_of_read hread
  rw [BootstrapHeader.length_of_read hheader] at hn
  by_cases hmagic : n < 4
  · rw [read, BootstrapHeader.read_of_length_lt ((List.length_take_le _ _).trans_lt hmagic)]
    exact .inMagic hmagic
  by_cases hbody : n < BootstrapHeader.headerEnd
  · rw [read, BootstrapHeader.read_take_of_lt hheader (Nat.not_lt.mp hmagic) hbody]
    exact .inHeader (Nat.not_lt.mp hmagic) hbody
  · rw [read, BootstrapHeader.read_take_of_le hheader (Nat.not_lt.mp hbody)]
    obtain ⟨k, r, hk, hr, hcut, hpackages⟩ := h.composed.packages_take
      (m := n - BootstrapHeader.headerEnd) (Nat.sub_lt_left_of_lt_add (Nat.not_lt.mp hbody) hn)
    change CutReads f n (.ok (packages { f with body := f.body.take (n - BootstrapHeader.headerEnd) }))
    rw [hpackages]
    by_cases hlength : r < 4
    · rw [if_pos hlength]
      exact .beforeChunk hk (by rw [chunkEnd]; omega) (by rw [chunkEnd]; omega)
    · rw [if_neg hlength]
      exact .inChunk hk (by rw [chunkEnd]; omega) (by rw [chunkEnd]; omega)

end BootstrapFile

namespace BootstrapWriter

variable {t t' : FileTree} {path : String} {before : Option Bytes} {start last : UInt64}
  {packages : List BlockPackage}

/-- The file that a session leaves is read up to the place of every cut, if what was there before is whole and
the chunks that were added may be read. -/
theorem addAt_cutReads {result : UInt64 × UInt64 × ℕ} (hleft : LeftAt t path before)
    (hwhole : ∀ bytes, before = some bytes → ∃ f, BootstrapFile.read bytes = .ok f ∧ f.Whole)
    (hfit : HundredsFit packages) (hadd : addAt t path start last packages = (t', .ok result)) :
    ∃ f f' bytes', BootstrapFile.read (openedBytes before start last) = .ok f ∧ KeepsAt t' path bytes' ∧
      BootstrapFile.read bytes' = .ok f' ∧ f.LengthenedBy f' packages ∧
      ∀ n < bytes'.length, f'.CutReads n ((BootstrapFile.read (bytes'.take n)).map BootstrapFile.packages) := by
  obtain ⟨f, f', bytes', hopened, hkeeps, hread, hlonger⟩ := addAt_leaves hleft hwhole hfit hadd
  exact ⟨f, f', bytes', hopened, hkeeps, hread, hlonger, fun n hn => hlonger.whole.cutReads hread hn⟩

/-- A session starts a file with the package of one block. -/
theorem addAt_lower : ∃ t', addAt {} "chain.dat" 0 0 [lower.package] = (t', .ok (0, 1, 1)) :=
  ⟨_, Prod.ext rfl (by decide +kernel)⟩

/-- This file is read up to the place of every cut. -/
theorem addAt_cutReads_lower :
    LeftAt {} "chain.dat" none ∧ HundredsFit [lower.package] ∧
    ∃ t' bytes' f', addAt {} "chain.dat" 0 0 [lower.package] = (t', .ok (0, 1, 1)) ∧
      KeepsAt t' "chain.dat" bytes' ∧ BootstrapFile.read bytes' = .ok f' ∧ f'.groups = [[lower.package]] ∧
      ∀ n < bytes'.length, f'.CutReads n ((BootstrapFile.read (bytes'.take n)).map BootstrapFile.packages) := by
  have hleft : LeftAt {} "chain.dat" none := FreshPath.empty
  have hfit : HundredsFit [lower.package] := (RunsFit.of_length (by decide +kernel)).hundredsFit
  obtain ⟨t', hadd⟩ := addAt_lower
  obtain ⟨f, f', bytes', hopened, hkeeps, hread, hlonger, hcuts⟩ :=
    addAt_cutReads hleft (fun bytes hbytes => nomatch hbytes) hfit hadd
  have hstarted := read_started 0 0 []
  rw [List.append_nil, hopened] at hstarted
  obtain rfl := Except.ok.inj hstarted
  refine ⟨hleft, hfit, _, bytes', f', hadd, hkeeps, hread, ?_, hcuts⟩
  rw [hlonger.groups, (BootstrapFile.composed_started 0 0).groups_eq,
    hundreds_of_lt (List.cons_ne_nil _ _) (by decide), List.nil_append]

/-- A file with the package of one block that is cut behind the first byte of the length of its chunk reads as
one without packages, and no fault is found. -/
theorem not_truncated_lower :
    ∃ t' bytes', addAt {} "chain.dat" 0 0 [lower.package] = (t', .ok (0, 1, 1)) ∧
      KeepsAt t' "chain.dat" bytes' ∧ BootstrapHeader.headerEnd < 1029 ∧ 1029 < bytes'.length ∧
      BootstrapFile.countBlocks bytes' = .ok (1, 0) ∧
      ∃ f, BootstrapFile.read (bytes'.take 1029) = .ok f ∧ f.packages.items = [] ∧
        f.packages.failure = none := by
  have hleft : LeftAt {} "chain.dat" none := FreshPath.empty
  obtain ⟨t', hadd⟩ := addAt_lower
  have hheader := BootstrapFile.header_of_read (read_started 0 0 (bodyOf (hundreds [lower.package])))
  have hcut := BootstrapHeader.read_take_of_le (n := 1029) hheader (by decide)
  have hlength := BootstrapHeader.length_of_read hheader
  refine ⟨_, _, hadd, addAt_eq_ok hleft hadd, by decide, ?_, by decide +kernel, _,
    map_eq_ok_iff.mpr ⟨_, hcut, rfl⟩, ?_⟩
  · rw [hlength]
    decide +kernel
  · rw [BootstrapFile.packages, BootstrapFile.contents, cutChunks_of_length_lt]
    · exact ⟨rfl, rfl⟩
    · exact Nat.lt_of_le_of_lt (List.length_take_le _ _) (by decide)

end BootstrapWriter

end RingDepth
