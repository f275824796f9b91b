import Mathlib.Data.List.Infix
import RingDepth.Proofs.Bootstrap.Contents

/-!
# What a writer leaves in its file

A writer has the packages it was given in full chunks and in the frames that are still to go into a chunk.
An added package joins the latter, which become a chunk once there are a hundred of them. Finished, the
writer leaves all packages in chunks, so they are read back, provided that no run of a hundred of them is too
large. Given up, it leaves as many of them as fill whole chunks.
-/

namespace RingDepth

/-- Whether every run of packages that go into one chunk may be read. -/
def RunsFit (packages : List BlockPackage) : Prop :=
  ∀ run, run <:+: packages → run.length ≤ packagesPerChunk → (chunkOf run).length ≤ maxChunkSize

/-- If all packages together may be read as one chunk, then so may every run of them. -/
theorem RunsFit.of_length {packages : List BlockPackage}
    (h : (chunkOf packages).length ≤ maxChunkSize) : RunsFit packages := by
  rintro run ⟨front, back, rfl⟩ -
  refine Nat.le_trans ?_ h
  rw [chunkOf, chunkOf, List.flatMap_append, List.flatMap_append, List.length_append,
    List.length_append]
  omega

namespace BootstrapWriter

/-- Where a writer has put packages: in chunks behind the start of its file, or among the frames that wait for
the next chunk. No chunk holds more packages than go into one. -/
structure Writing (w : BootstrapWriter) (start : Bytes) (chunks : List (List BlockPackage))
    (waiting : List BlockPackage) : Prop where
  file : w.file = start ++ bodyOf chunks
  pending : w.pending = chunkOf waiting
  count : w.pendingCount = waiting.length
  full : ∀ ps ∈ chunks, ps.length ≤ packagesPerChunk

/-- A writer holds packages if it has put all of them somewhere in their order, and fewer of them wait than
go into a chunk. -/
def Holds (w : BootstrapWriter) (start : Bytes) (packages : List BlockPackage) : Prop :=
  ∃ chunks waiting, w.Writing start chunks waiting ∧ waiting.length < packagesPerChunk ∧
    chunks.flatten ++ waiting = packages

variable {w w' : BootstrapWriter} {start : Bytes} {packages : List BlockPackage}

/-- A writer for which nothing waits holds no packages behind what is in its file. -/
theorem holds_nil (hpending : w.pending = []) (hcount : w.pendingCount = 0) : w.Holds w.file [] :=
  ⟨[], [], ⟨(List.append_nil _).symm, hpending, hcount, List.forall_mem_nil _⟩, by decide, rfl⟩

/-- A writer that started a file holds no packages. -/
theorem holds_create (first last : UInt64) : (create first last).Holds (create first last).file [] :=
  holds_nil rfl rfl

/-- Adding a package succeeds if the height behind it can be counted. -/
theorem exists_append (w : BootstrapWriter) (p : BlockPackage)
    (hroom : w.nextHeight.toNat + 1 < UInt64.size) : ∃ w', w.append p = .ok w' := by
  obtain ⟨next, hnext⟩ := exists_addCounter (ε := BootstrapError) (b := 1) hroom
  exact ⟨_, bind_eq_ok_iff.mpr ⟨next, hnext, rfl⟩⟩

namespace Writing

variable {chunks : List (List BlockPackage)} {waiting : List BlockPackage}

/-- A package joins those that wait. -/
theorem collect (h : w.Writing start chunks waiting) (p : BlockPackage) (nextHeight : UInt64) :
    BootstrapWriter.Writing { w with
      pending := w.pending ++ frame (Codec.encode p)
      pendingCount := w.pendingCount + 1
      nextHeight
      written := w.written + 1 } start chunks (waiting ++ [p]) := by
  refine { h with pending := ?_, count := ?_ }
  · rw [h.pending, chunkOf, chunkOf, List.flatMap_append, List.flatMap_singleton]
    rfl
  · rw [h.count, List.length_append, List.length_singleton]

/-- The packages that wait become a chunk, if there are any and not too many. -/
theorem close (h : w.Writing start chunks waiting) (hsome : waiting ≠ [])
    (hroom : waiting.length ≤ packagesPerChunk) : w.flush.Writing start (chunks ++ [waiting]) [] := by
  have hpending : ¬w.pending.isEmpty := by
    have hlength := length_le_chunkOf waiting
    have hpos := List.length_pos_iff.mpr hsome
    rw [List.isEmpty_iff, ← List.length_eq_zero_iff, h.pending]
    omega
  rw [BootstrapWriter.flush, if_neg hpending]
  refine ⟨?_, rfl, rfl, ?_⟩
  · rw [h.file, h.pending, bodyOf, bodyOf, List.flatMap_append, List.flatMap_singleton, List.append_assoc]
  · intro ps hps
    obtain hold | hnew := List.mem_append.mp hps
    · exact h.full ps hold
    · rw [List.mem_singleton.mp hnew]
      exact hroom

/-- If no packages wait, then no chunk is made. -/
theorem flush_eq (h : w.Writing start chunks []) : w.flush = w :=
  if_pos (List.isEmpty_iff.mpr h.pending)

/-- Finishing makes a chunk of the packages that wait, if there are not too many. -/
theorem flush (h : w.Writing start chunks waiting) (hroom : waiting.length ≤ packagesPerChunk) :
    ∃ chunks', w.flush.Writing start chunks' [] ∧ chunks'.flatten = chunks.flatten ++ waiting := by
  by_cases hnone : waiting = []
  · subst hnone
    exact ⟨chunks, h.flush_eq.symm ▸ h, (List.append_nil _).symm⟩
  · exact ⟨chunks ++ [waiting], h.close hnone hroom, by simp⟩

end Writing

namespace Holds

/-- An added package comes behind those that a writer holds. -/
theorem append (h : w.Holds start packages) {p : BlockPackage} (happend : w.append p = .ok w') :
    w'.Holds start (packages ++ [p]) ∧ w'.nextHeight.toNat = w.nextHeight.toNat + 1 ∧
      w'.written = w.written + 1 := by
  obtain ⟨chunks, waiting, hwriting, hroom, rfl⟩ := h
  obtain ⟨next, hnext, heq⟩ := bind_eq_ok_iff.mp happend
  rw [addCounter_eq_ok_iff] at hnext
  obtain rfl := Except.ok.inj heq
  have hgrown := hwriting.collect p next
  dsimp only
  split
  · obtain ⟨chunks', hflushed, hflatten⟩ := hgrown.flush (by simpa [Nat.succ_le_iff] using hroom)
    refine ⟨⟨chunks', [], hflushed, by decide, ?_⟩, ?_⟩
    · rw [hflatten, List.append_nil, List.append_assoc]
    · rw [BootstrapWriter.flush]
      split
      · exact ⟨hnext, rfl⟩
      · exact ⟨hnext, rfl⟩
  · rename_i hcount
    refine ⟨⟨chunks, waiting ++ [p], hgrown, ?_, (List.append_assoc _ _ _).symm⟩, hnext, rfl⟩
    rw [hwriting.count] at hcount
    rw [List.length_append, List.length_singleton]
    omega

/-- A finished writer holds all packages in chunks that may be read, if every run of packages may be. -/
theorem flush (h : w.Holds start packages) (hruns : RunsFit packages) :
    ∃ chunks, w.flush.file = start ++ bodyOf chunks ∧ chunks.flatten = packages ∧
      ∀ ps ∈ chunks, (chunkOf ps).length ≤ maxChunkSize := by
  obtain ⟨chunks, waiting, hwriting, hroom, rfl⟩ := h
  obtain ⟨chunks', hflushed, hflatten⟩ := hwriting.flush (Nat.le_of_lt hroom)
  refine ⟨chunks', hflushed.file, hflatten, fun ps hps => ?_⟩
  exact hruns ps (hflatten ▸ List.infix_of_mem_flatten hps) (hflushed.full ps hps)

end Holds

/-- An added package is counted among those that wait, until a hundred of them do. -/
theorem pendingCount_append {p : BlockPackage} (happend : w.append p = .ok w')
    (hroom : w.pendingCount < packagesPerChunk) :
    w'.pendingCount = (w.pendingCount + 1) % packagesPerChunk := by
  obtain ⟨next, -, heq⟩ := bind_eq_ok_iff.mp happend
  obtain rfl := Except.ok.inj heq
  have hframe : w.pending ++ frame (Codec.encode p) ≠ [] := by
    rw [← List.length_pos_iff, List.length_append, length_frame]
    omega
  dsimp only
  split
  · rename_i hfull
    rw [hfull, Nat.mod_self, BootstrapWriter.flush, if_neg (by simpa using hframe)]
  · rename_i hfull
    rw [Nat.mod_eq_of_lt (by omega)]

/-- What a writer has done that was given some packages to add to a file: it holds and has counted the
packages, and those wait that fill no chunk. -/
structure Adding (w : BootstrapWriter) (start : Bytes) (packages : List BlockPackage) : Prop where
  holds : w.Holds start packages
  pendingCount : w.pendingCount = packages.length % packagesPerChunk
  written : w.written = packages.length

namespace Adding

/-- Another package is added. -/
theorem append (h : w.Adding start packages) {p : BlockPackage} (happend : w.append p = .ok w') :
    w'.Adding start (packages ++ [p]) := by
  obtain ⟨hholds, -, hwritten⟩ := h.holds.append happend
  have hroom : w.pendingCount < packagesPerChunk := h.pendingCount ▸ Nat.mod_lt _ (by decide)
  refine ⟨hholds, ?_, ?_⟩
  · rw [pendingCount_append happend hroom, h.pendingCount, List.length_append, List.length_singleton,
      Nat.mod_add_mod]
  · rw [hwritten, h.written, List.length_append, List.length_singleton]

/-- A writer that is given up leaves the packages of the chunks that it filled, which may be read if every
run of packages may be. -/
theorem file (h : w.Adding start packages) (hruns : RunsFit packages) :
    ∃ chunks, w.file = start ++ bodyOf chunks ∧
      chunks.flatten = packages.take (packagesPerChunk * (packages.length / packagesPerChunk)) ∧
      ∀ ps ∈ chunks, (chunkOf ps).length ≤ maxChunkSize := by
  obtain ⟨⟨chunks, waiting, hwriting, -, rfl⟩, hcount, -⟩ := h
  refine ⟨chunks, hwriting.file, ?_, fun ps hps => ?_⟩
  · -- The packages in chunks are all but the rest of the division.
    have hdivision := Nat.mod_add_div (chunks.flatten ++ waiting).length packagesPerChunk
    rw [← hcount, hwriting.count, List.length_append, Nat.add_comm] at hdivision
    rw [List.take_append_of_le_length, List.take_of_length_le]
    · rw [List.length_append]
      omega
    · rw [List.length_append]
      omega
  · have hrun : ps <:+: chunks.flatten ++ waiting :=
      (List.infix_of_mem_flatten hps).trans (List.prefix_append _ _).isInfix
    exact hruns ps hrun (hwriting.full ps hps)

end Adding

end BootstrapWriter

end RingDepth
