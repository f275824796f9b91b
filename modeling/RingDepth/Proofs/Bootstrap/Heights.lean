import RingDepth.Proofs.Bootstrap.AnyBytes
import RingDepth.Proofs.Bootstrap.Cutting

/-!
# The height behind a file

A writer that goes on with a file takes the height of the first package from the header, adds the number of frames,
and counts on with each package that is added. What the header says is not compared with anything. So the sum may be
one that no counter holds, and then the writer halts while it is opened. If the sum is a counter, then the writer is
opened, and halts at the first package behind which there is no height. The number of frames is always a counter, since
the length of a file is one.
-/

namespace RingDepth

namespace BootstrapFile

variable {bytes : Bytes} {n height height' : ℕ} {first : UInt64}

/-- The height behind the last package of a file: that of the first one, as the header has it, and one more for each
frame. -/
def EndsAt (bytes : Bytes) (height : ℕ) : Prop :=
  ∃ n first, countBlocks bytes = .ok (n, first) ∧ height = first.toNat + n

/-- There is one such height. -/
theorem EndsAt.unique (h : EndsAt bytes height) (h' : EndsAt bytes height') : height = height' := by
  obtain ⟨n, first, hcount, rfl⟩ := h
  obtain ⟨n', first', hcount', rfl⟩ := h'
  obtain ⟨rfl, rfl⟩ := Prod.mk.inj (Except.ok.inj (hcount.symm.trans hcount'))
  rfl

/-- Each frame that is counted has four bytes or more. -/
theorem countBlocks_le (h : countBlocks bytes = .ok (n, first)) : 4 * n ≤ bytes.length := by
  obtain ⟨f, records, hread, -, hrecords, rfl⟩ := countBlocks_eq_ok_iff.mp h
  have hframes := length_frames_le hrecords
  have hbody := BootstrapHeader.length_of_read (header_of_read hread)
  omega

end BootstrapFile

namespace BootstrapWriter

variable {t : FileTree} {path : String} {bytes : Bytes} {w : BootstrapWriter} {height : ℕ}

/-- Finishing does not count. -/
theorem nextHeight_flush (w : BootstrapWriter) : w.flush.nextHeight = w.nextHeight := by
  rw [flush]
  split <;> rfl

/-- A package is added, and the height counted up, unless there is none behind it. -/
theorem append_cases (w : BootstrapWriter) (p : BlockPackage) :
    (∃ w', w.append p = .ok w' ∧ w'.nextHeight.toNat = w.nextHeight.toNat + 1) ∨
      w.append p = .error .overflow ∧ UInt64.size ≤ w.nextHeight.toNat + 1 := by
  obtain hroom | hlast := Nat.lt_or_ge (w.nextHeight.toNat + 1) UInt64.size
  · obtain ⟨next, hnext⟩ := exists_addCounter (ε := BootstrapError) (b := 1) hroom
    refine .inl ⟨_, bind_eq_ok_iff.mpr ⟨next, hnext, rfl⟩, ?_⟩
    rw [addCounter_eq_ok_iff] at hnext
    dsimp only
    split
    · rw [nextHeight_flush]
      exact hnext
    · exact hnext
  · refine .inr ⟨?_, hlast⟩
    rw [append, addCounter_eq_overflow (b := 1) hlast]
    rfl

/-- Packages are added one after the other, and all of them are counted, unless the heights come to an end. -/
theorem appendAll_cases (w : BootstrapWriter) (packages : List BlockPackage) :
    (∃ w', w.appendAll packages = (w', .ok ()) ∧ w'.nextHeight.toNat = w.nextHeight.toNat + packages.length) ∨
      ∃ w', w.appendAll packages = (w', .error .overflow) ∧
        UInt64.size ≤ w.nextHeight.toNat + packages.length := by
  induction packages generalizing w with
  | nil => exact .inl ⟨w, rfl, rfl⟩
  | cons p packages ih =>
    rw [appendAll, List.length_cons]
    obtain ⟨next, hnext, hheight⟩ | ⟨hhalts, hlast⟩ := w.append_cases p
    · rw [hnext]
      dsimp only
      obtain ⟨w', hadded, hcounted⟩ | ⟨w', hhalts, hlarge⟩ := ih next
      · exact .inl ⟨w', hadded, by omega⟩
      · exact .inr ⟨w', hhalts, by omega⟩
    · rw [hhalts]
      exact .inr ⟨w, rfl, by omega⟩

/-- Whether a writer counts from a height on: packages can be added for as long as there are heights behind them, and
then finishing leaves the height behind the last one. Otherwise the adding halts. -/
structure CountsFrom (w : BootstrapWriter) (height : ℕ) : Prop where
  next : w.nextHeight.toNat = height
  overflows_iff : ∀ packages, (w.appendAll packages).2 = .error .overflow ↔ UInt64.size ≤ height + packages.length
  finishes : ∀ packages, height + packages.length < UInt64.size →
    ∃ w', w.appendAll packages = (w', .ok ()) ∧ w'.flush.nextHeight.toNat = height + packages.length

/-- Every writer counts from its next height on. -/
theorem countsFrom_nextHeight (w : BootstrapWriter) : w.CountsFrom w.nextHeight.toNat where
  next := rfl
  overflows_iff packages := by
    obtain ⟨w', hadded, hcounted⟩ | ⟨w', hhalts, hlarge⟩ := w.appendAll_cases packages
    · rw [hadded]
      exact iff_of_false nofun (Nat.not_le.mpr (hcounted ▸ w'.nextHeight.toNat_lt))
    · rw [hhalts]
      exact iff_of_true rfl hlarge
  finishes packages hroom := by
    obtain ⟨w', hadded, hcounted⟩ | ⟨w', hhalts, hlarge⟩ := w.appendAll_cases packages
    · exact ⟨w', hadded, by rw [nextHeight_flush, hcounted]⟩
    · exact absurd hroom (Nat.not_lt.mpr hlarge)

/-- A file that is not counted is not gone on with. -/
theorem resume_of_refused {e : BootstrapError} (h : BootstrapFile.countBlocks bytes = .error e) :
    resume bytes = .error (.failure e) := by
  rw [resume, h]
  rfl

/-- A file that is counted is gone on with from the height behind it, unless there is none. -/
theorem resume_cases (hsize : bytes.length < UInt64.size) (hends : BootstrapFile.EndsAt bytes height) :
    (∃ w, resume bytes = .ok w ∧ w.nextHeight.toNat = height) ∨
      resume bytes = .error .overflow ∧ UInt64.size ≤ height := by
  obtain ⟨n, first, hcount, rfl⟩ := hends
  -- The number of frames is a counter, since the file has four bytes for each.
  have hle := BootstrapFile.countBlocks_le hcount
  have hcounter : (UInt64.ofNat n).toNat = n := UInt64.toNat_ofNat_of_lt' (by omega)
  rw [resume, hcount]
  obtain hroom | hlarge := Nat.lt_or_ge (first.toNat + n) UInt64.size
  · obtain ⟨next, hnext⟩ := exists_addCounter (ε := BootstrapError) (a := first) (b := UInt64.ofNat n) (by omega)
    refine .inl ⟨_, bind_eq_ok_iff.mpr ⟨(n, first), rfl, bind_eq_ok_iff.mpr ⟨next, hnext, rfl⟩⟩, ?_⟩
    rw [addCounter_eq_ok_iff.mp hnext, hcounter]
  · refine .inr ⟨?_, hlarge⟩
    change (addCounter first (UInt64.ofNat n) >>= _) = _
    rw [addCounter_eq_overflow (by omega)]
    rfl

/-- Going on with a file is refused exactly if the file is not counted, and halts exactly if there is no height behind
the file. Otherwise the writer counts from the height behind the file on. -/
theorem openAt_overflows_iff (hkeeps : KeepsAt t path bytes) (hsize : bytes.length < UInt64.size)
    (start last : UInt64) :
    (∀ e, openAt t path start last = (t, .error (.failure e)) ↔ BootstrapFile.countBlocks bytes = .error e) ∧
      (openAt t path start last = (t, .error .overflow) ↔
        ∃ height, BootstrapFile.EndsAt bytes height ∧ UInt64.size ≤ height) ∧
      ∀ height, BootstrapFile.EndsAt bytes height → height < UInt64.size →
        ∃ w, openAt t path start last = (t, .ok w) ∧ w.CountsFrom height := by
  rw [hkeeps.openAt]
  cases hcount : BootstrapFile.countBlocks bytes with
  | error e =>
    have hnone (height : ℕ) : ¬BootstrapFile.EndsAt bytes height := by
      rintro ⟨n, first, hcounted, -⟩
      cases hcount.symm.trans hcounted
    rw [resume_of_refused hcount]
    refine ⟨fun d => by simp, iff_of_false (by simp) ?_, fun height hends => absurd hends (hnone height)⟩
    exact fun ⟨height, hends, _⟩ => hnone height hends
  | ok counted =>
    obtain ⟨n, first⟩ := counted
    have hends : BootstrapFile.EndsAt bytes (first.toNat + n) := ⟨n, first, hcount, rfl⟩
    obtain ⟨w, hresume, hnext⟩ | ⟨hhalts, hlarge⟩ := resume_cases hsize hends
    · rw [hresume]
      refine ⟨fun e => iff_of_false (by simp) nofun, iff_of_false (by simp) ?_, fun height hheight _ => ⟨w, rfl, ?_⟩⟩
      · rintro ⟨height, hheight, hlarge⟩
        rw [hheight.unique hends, ← hnext] at hlarge
        exact Nat.not_lt.mpr hlarge w.nextHeight.toNat_lt
      · rw [hheight.unique hends, ← hnext]
        exact w.countsFrom_nextHeight
    · rw [hhalts]
      refine ⟨fun e => iff_of_false (by simp) nofun, iff_of_true rfl ⟨_, hends, hlarge⟩, fun height hheight hroom => ?_⟩
      rw [hheight.unique hends] at hroom
      exact absurd hroom (Nat.not_lt.mpr hlarge)

/-- A file with the package of one block that its header has at a height. -/
def lowerFileAt (first : UInt64) : Bytes := (create first 0).file ++ bodyOf [[lower.package]]

/-- If the package is at the height before the greatest one, then the file is gone on with, but there is no height
behind another package. -/
theorem openAt_overflows_greatest :
    KeepsAt (treeWith (lowerFileAt 0xfffffffffffffffe)) "chain.dat" (lowerFileAt 0xfffffffffffffffe) ∧
    (lowerFileAt 0xfffffffffffffffe).length < UInt64.size ∧
    ∃ w, openAt (treeWith (lowerFileAt 0xfffffffffffffffe)) "chain.dat" 0 0 =
        (treeWith (lowerFileAt 0xfffffffffffffffe), .ok w) ∧
      w.nextHeight = 0xffffffffffffffff ∧ (w.appendAll [upper.package]).2 = .error .overflow := by
  have hkeeps := keepsAt_treeWith (lowerFileAt 0xfffffffffffffffe)
  have hsize : (lowerFileAt 0xfffffffffffffffe).length < UInt64.size := by decide +kernel
  have hends : BootstrapFile.EndsAt (lowerFileAt 0xfffffffffffffffe) 0xffffffffffffffff :=
    ⟨1, 0xfffffffffffffffe, by decide +kernel, by decide⟩
  obtain ⟨w, hopen, hcounts⟩ := (openAt_overflows_iff hkeeps hsize 0 0).2.2 _ hends (by decide)
  exact ⟨hkeeps, hsize, w, hopen, UInt64.toNat_inj.mp hcounts.next, (hcounts.overflows_iff _).mpr (by decide)⟩

/-- If the package is at the greatest height, then going on with the file halts, although the file is counted. -/
theorem not_opened_greatest :
    KeepsAt (treeWith (lowerFileAt 0xffffffffffffffff)) "chain.dat" (lowerFileAt 0xffffffffffffffff) ∧
    BootstrapFile.countBlocks (lowerFileAt 0xffffffffffffffff) = .ok (1, 0xffffffffffffffff) ∧
    openAt (treeWith (lowerFileAt 0xffffffffffffffff)) "chain.dat" 0 0 =
      (treeWith (lowerFileAt 0xffffffffffffffff), .error .overflow) := by
  have hkeeps := keepsAt_treeWith (lowerFileAt 0xffffffffffffffff)
  have hcount : BootstrapFile.countBlocks (lowerFileAt 0xffffffffffffffff) = .ok (1, 0xffffffffffffffff) := by
    decide +kernel
  refine ⟨hkeeps, hcount, ?_⟩
  rw [hkeeps.openAt]
  obtain ⟨w, -, hnext⟩ | ⟨hhalts, -⟩ := resume_cases (by decide +kernel) ⟨1, _, hcount, rfl⟩
  · exact absurd w.nextHeight.toNat_lt (Nat.not_lt.mpr (Nat.le_of_eq hnext.symm))
  · rw [hhalts]

end BootstrapWriter

end RingDepth
