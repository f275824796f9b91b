import RingDepth.Proofs.Bootstrap.Writer

/-!
# The chunks that a writer makes

A writer fills its chunks one after the other, with a hundred packages each, and finishing makes a chunk of
those that are left. So the packages of each chunk are known from their place among all that were added, and
whether the chunks may be read is a question about these hundreds.
-/

namespace RingDepth

/-- The packages that go into the chunk with a number. -/
def hundred (packages : List BlockPackage) (number : ℕ) : List BlockPackage :=
  (packages.drop (packagesPerChunk * number)).take packagesPerChunk

/-- Whether every chunk of packages may be read. -/
def HundredsFit (packages : List BlockPackage) : Prop :=
  ∀ number, (chunkOf (hundred packages number)).length ≤ maxChunkSize

/-- The chunks may be read if every run of packages that go into one may be. -/
theorem RunsFit.hundredsFit {packages : List BlockPackage} (h : RunsFit packages) : HundredsFit packages :=
  fun _ => h _ ((List.take_prefix _ _).isInfix.trans (List.drop_suffix _ _).isInfix) (List.length_take_le _ _)

/-- Packages in hundreds, of which the last may be fewer. -/
def hundreds (packages : List BlockPackage) : List (List BlockPackage) :=
  (List.range ((packages.length + (packagesPerChunk - 1)) / packagesPerChunk)).map (hundred packages)

/-- The first hundreds hold the first packages. -/
theorem flatten_map_hundred (packages : List BlockPackage) (n : ℕ) :
    ((List.range n).map (hundred packages)).flatten = packages.take (packagesPerChunk * n) := by
  induction n with
  | zero => rfl
  | succ n ih =>
    rw [List.range_succ, List.map_append, List.flatten_append, ih, List.map_singleton,
      List.flatten_singleton, hundred, Nat.mul_succ, List.take_add]

/-- The hundreds hold all packages in order. -/
theorem flatten_hundreds (packages : List BlockPackage) : (hundreds packages).flatten = packages := by
  rw [hundreds, flatten_map_hundred, List.take_of_length_le]
  simp only [packagesPerChunk]
  omega

/-- A hundred is empty exactly if it would begin behind the last package. -/
theorem hundred_eq_nil_iff {packages : List BlockPackage} {number : ℕ} :
    hundred packages number = [] ↔ packages.length ≤ packagesPerChunk * number := by
  rw [hundred, List.take_eq_nil_iff, List.drop_eq_nil_iff]
  exact or_iff_right (by decide)

/-- What the hundreds are, one by one. -/
theorem mem_hundreds_iff {packages ps : List BlockPackage} :
    ps ∈ hundreds packages ↔ ps ≠ [] ∧ ∃ number, ps = hundred packages number := by
  have hlt (number : ℕ) : number < (packages.length + (packagesPerChunk - 1)) / packagesPerChunk ↔
      hundred packages number ≠ [] := by
    rw [ne_eq, hundred_eq_nil_iff, packagesPerChunk]
    omega
  rw [hundreds, List.mem_map]
  constructor
  · rintro ⟨number, hnumber, rfl⟩
    exact ⟨(hlt number).mp (List.mem_range.mp hnumber), number, rfl⟩
  · rintro ⟨hsome, number, rfl⟩
    exact ⟨number, List.mem_range.mpr ((hlt number).mpr hsome), rfl⟩

/-- The chunks of packages may be read if those of the hundreds may be. -/
theorem hundredsFit_iff {packages : List BlockPackage} :
    HundredsFit packages ↔ ∀ ps ∈ hundreds packages, (chunkOf ps).length ≤ maxChunkSize := by
  constructor
  · intro h ps hps
    obtain ⟨-, number, rfl⟩ := mem_hundreds_iff.mp hps
    exact h number
  · intro h number
    by_cases hnone : hundred packages number = []
    · rw [hnone]
      exact Nat.zero_le _
    · exact h _ (mem_hundreds_iff.mpr ⟨hnone, number, rfl⟩)

/-- Packages that fill a chunk are the first hundred. -/
theorem hundreds_append {ps : List BlockPackage} (hfull : ps.length = packagesPerChunk)
    (rest : List BlockPackage) : hundreds (ps ++ rest) = ps :: hundreds rest := by
  have hcount : ((ps ++ rest).length + (packagesPerChunk - 1)) / packagesPerChunk =
      (rest.length + (packagesPerChunk - 1)) / packagesPerChunk + 1 := by
    rw [List.length_append, hfull, packagesPerChunk]
    omega
  have hnext (number : ℕ) : hundred (ps ++ rest) (number + 1) = hundred rest number := by
    rw [hundred, hundred, Nat.mul_succ, Nat.add_comm, ← hfull, ← List.drop_drop, List.drop_left]
  rw [hundreds, hcount, List.range_succ_eq_map, List.map_cons, List.map_map]
  refine congrArg₂ List.cons ?_ (List.map_congr_left fun number _ => hnext number)
  rw [hundred, Nat.mul_zero, List.drop_zero, List.take_left' hfull]

/-- Fewer packages than go into a chunk are one hundred, if there are any. -/
theorem hundreds_of_lt {ps : List BlockPackage} (hsome : ps ≠ []) (hroom : ps.length < packagesPerChunk) :
    hundreds ps = [ps] := by
  have hcount : (ps.length + (packagesPerChunk - 1)) / packagesPerChunk = 1 := by
    have hpos := List.length_pos_iff.mpr hsome
    rw [packagesPerChunk] at hroom ⊢
    omega
  rw [hundreds, hcount, List.range_one, List.map_singleton, hundred, Nat.mul_zero, List.drop_zero,
    List.take_of_length_le (Nat.le_of_lt hroom)]

/-- Full chunks are the first hundreds of all that is in them and behind them. -/
theorem hundreds_flatten_append {chunks : List (List BlockPackage)}
    (hfull : ∀ ps ∈ chunks, ps.length = packagesPerChunk) (rest : List BlockPackage) :
    hundreds (chunks.flatten ++ rest) = chunks ++ hundreds rest := by
  induction chunks with
  | nil => rfl
  | cons ps chunks ih =>
    obtain ⟨hps, hchunks⟩ := List.forall_mem_cons.mp hfull
    rw [List.flatten_cons, List.append_assoc, hundreds_append hps, ih hchunks, List.cons_append]

namespace BootstrapWriter

/-- Where a writer has put packages: in full chunks behind the start of its file, or among the frames that
wait for the next chunk, of which there are fewer than go into one. -/
structure Filling (w : BootstrapWriter) (start : Bytes) (chunks : List (List BlockPackage))
    (waiting : List BlockPackage) : Prop where
  writing : w.Writing start chunks waiting
  full : ∀ ps ∈ chunks, ps.length = packagesPerChunk
  room : waiting.length < packagesPerChunk

namespace Filling

variable {w w' : BootstrapWriter} {start : Bytes} {chunks : List (List BlockPackage)}
  {waiting : List BlockPackage}

/-- Nothing waits for a writer that has added nothing to its file. -/
theorem nil (hpending : w.pending = []) (hcount : w.pendingCount = 0) : w.Filling w.file [] [] where
  writing := ⟨(List.append_nil _).symm, hpending, hcount, List.forall_mem_nil _⟩
  full := List.forall_mem_nil _
  room := by decide

/-- All packages are held in their order. -/
theorem holds (h : w.Filling start chunks waiting) : w.Holds start (chunks.flatten ++ waiting) :=
  ⟨chunks, waiting, h.writing, h.room, rfl⟩

/-- An added package comes behind the others: it waits, or it fills the next chunk. -/
theorem append (h : w.Filling start chunks waiting) {p : BlockPackage} (happend : w.append p = .ok w') :
    ∃ chunks' waiting', w'.Filling start chunks' waiting' ∧
      chunks'.flatten ++ waiting' = chunks.flatten ++ waiting ++ [p] := by
  obtain ⟨next, -, heq⟩ := bind_eq_ok_iff.mp happend
  obtain rfl := Except.ok.inj heq
  have hgrown := h.writing.collect p next
  have hroom := h.room
  dsimp only
  split
  · rename_i hfilled
    rw [h.writing.count] at hfilled
    have hlength : (waiting ++ [p]).length = packagesPerChunk := by
      rw [List.length_append, List.length_singleton, hfilled]
    refine ⟨chunks ++ [waiting ++ [p]], [], ⟨hgrown.close (by simp) (Nat.le_of_eq hlength), ?_, by decide⟩, ?_⟩
    · exact List.forall_mem_append.mpr ⟨h.full, List.forall_mem_singleton.mpr hlength⟩
    · simp
  · rename_i hfilled
    rw [h.writing.count] at hfilled
    refine ⟨chunks, waiting ++ [p], ⟨hgrown, h.full, ?_⟩, (List.append_assoc _ _ _).symm⟩
    rw [List.length_append, List.length_singleton]
    omega

/-- A finished writer leaves all packages in hundreds. -/
theorem file_flush (h : w.Filling start chunks waiting) :
    w.flush.file = start ++ bodyOf (hundreds (chunks.flatten ++ waiting)) := by
  rw [hundreds_flatten_append h.full]
  by_cases hnone : waiting = []
  · subst hnone
    rw [h.writing.flush_eq, h.writing.file]
    exact congrArg (start ++ bodyOf ·) (List.append_nil chunks).symm
  · rw [(h.writing.close hnone (Nat.le_of_lt h.room)).file, hundreds_of_lt hnone h.room]

/-- So each chunk that it leaves holds some packages, and it is known which. -/
theorem flush (h : w.Filling start chunks waiting) :
    ∃ chunks', w.flush.file = start ++ bodyOf chunks' ∧ chunks'.flatten = chunks.flatten ++ waiting ∧
      ∀ ps ∈ chunks', ps ≠ [] ∧ ∃ number, ps = hundred (chunks.flatten ++ waiting) number :=
  ⟨_, h.file_flush, flatten_hundreds _, fun _ => mem_hundreds_iff.mp⟩

/-- Packages that are added come behind the others, and are counted. -/
theorem appendAll {packages : List BlockPackage} (h : w.Filling start chunks waiting)
    (happend : w.appendAll packages = (w', .ok ())) :
    (∃ chunks' waiting', w'.Filling start chunks' waiting' ∧
      chunks'.flatten ++ waiting' = chunks.flatten ++ waiting ++ packages) ∧
    w'.nextHeight.toNat = w.nextHeight.toNat + packages.length ∧
    w'.written = w.written + packages.length := by
  induction packages generalizing w chunks waiting with
  | nil =>
    obtain ⟨rfl, -⟩ := Prod.mk.inj happend
    exact ⟨⟨chunks, waiting, h, (List.append_nil _).symm⟩, rfl, rfl⟩
  | cons p packages ih =>
    rw [BootstrapWriter.appendAll] at happend
    split at happend
    · cases happend
    · rename_i next hnext
      obtain ⟨-, hheight, hwritten⟩ := h.holds.append hnext
      obtain ⟨chunks₁, waiting₁, hfilling, hflatten⟩ := h.append hnext
      obtain ⟨⟨chunks', waiting', hfilling', hflatten'⟩, hheight', hwritten'⟩ := ih hfilling happend
      rw [hflatten, List.append_assoc, List.singleton_append] at hflatten'
      rw [List.length_cons]
      exact ⟨⟨chunks', waiting', hfilling', hflatten'⟩, by omega, by omega⟩

/-- Packages can be added as long as the height behind them can be counted. -/
theorem exists_appended (h : w.Filling start chunks waiting) (packages : List BlockPackage)
    (hroom : w.nextHeight.toNat + packages.length < UInt64.size) :
    ∃ w', w.appendAll packages = (w', .ok ()) := by
  induction packages generalizing w chunks waiting with
  | nil => exact ⟨w, rfl⟩
  | cons p packages ih =>
    rw [List.length_cons] at hroom
    obtain ⟨next, hnext⟩ := exists_append w p (by omega)
    obtain ⟨-, hheight, -⟩ := h.holds.append hnext
    obtain ⟨chunks', waiting', hfilling, -⟩ := h.append hnext
    rw [BootstrapWriter.appendAll, hnext]
    exact ih hfilling (by omega)

end Filling

/-- Packages are added one after the other if the height behind the last one can be counted. -/
theorem exists_appendAll {w : BootstrapWriter} {start : Bytes} {chunks : List (List BlockPackage)}
    {waiting : List BlockPackage} (h : w.Filling start chunks waiting) (packages : List BlockPackage)
    (hroom : w.nextHeight.toNat + packages.length < UInt64.size) :
    ∃ w' chunks' waiting', w.appendAll packages = (w', .ok ()) ∧ w'.Filling start chunks' waiting' ∧
      chunks'.flatten ++ waiting' = chunks.flatten ++ waiting ++ packages ∧
      w'.nextHeight.toNat = w.nextHeight.toNat + packages.length ∧
      w'.written = w.written + packages.length := by
  obtain ⟨w', happend⟩ := h.exists_appended packages hroom
  obtain ⟨⟨chunks', waiting', hfilling, hflatten⟩, hheight, hwritten⟩ := h.appendAll happend
  exact ⟨w', chunks', waiting', happend, hfilling, hflatten, hheight, hwritten⟩

end BootstrapWriter

end RingDepth
