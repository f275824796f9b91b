import RingDepth.Bootstrap.InTree
import RingDepth.Proofs.Files.Directories

/-!
# Opening the file of a writer

A writer starts its file at a path at which nothing is, and makes the directories above it. They are there
when the file is opened again, whatever was written to the file in between, so a file that was started can
always be gone on with.
-/

namespace RingDepth.BootstrapWriter

variable {t t' : FileTree} {path : String} {bytes : Bytes}

/-- Whether the directory above the place of a path is there. -/
def Parented (t : FileTree) (path : String) : Prop :=
  ∀ parent, Path.parent? path = some parent → parent = "" ∨ t.isDirectory parent = true

/-- Where the directory is there, none is made. -/
theorem Parented.makeParent (h : Parented t path) :
    BootstrapWriter.makeParent t path = (t, .ok ()) := by
  rw [BootstrapWriter.makeParent]
  split
  · rfl
  · rename_i parent hparent
    obtain rfl | hdirectory := h parent hparent
    · rfl
    · have hne : parent ≠ "" := by
        rintro rfl
        cases hdirectory
      have hthere : t.contains parent = true :=
        FileTree.contains_iff.mpr ⟨_, FileTree.isDirectory_iff.mp hdirectory⟩
      have hmake : t.makeDirectories parent = (t, .ok ()) := by
        rw [FileTree.makeDirectories, Path.ancestors, Path.ancestorsWithin, if_neg hne]
        exact FileTree.makeWithin_of_isDirectory hdirectory _
      simp only [hdirectory, hthere, hmake, Bool.not_true, Bool.and_false, Bool.false_eq_true, if_false]
      rfl

/-- The directory is there once it was made. -/
theorem parented_of_makeParent (h : makeParent t path = (t', .ok ())) : Parented t' path := by
  intro parent hparent
  simp only [makeParent, hparent] at h
  split at h
  · cases h
  · obtain ⟨rfl, hresult⟩ := Prod.mk.inj h
    rw [mapError_eq_ok_iff, FileTree.makeDirectories, Path.ancestors, Path.ancestorsWithin] at hresult
    by_cases hempty : parent = ""
    · exact .inl hempty
    · rw [if_neg hempty] at hresult
      refine .inr (FileTree.isDirectory_makeWithin (Prod.ext ?_ hresult))
      rw [FileTree.makeDirectories, Path.ancestors, Path.ancestorsWithin, if_neg hempty]

/-- Making it takes nothing away. -/
theorem keptBy_makeParent (t : FileTree) (path : String) : t.KeptBy (makeParent t path).1 := by
  rw [makeParent]
  split
  · exact .refl t
  · split
    · exact .refl t
    · exact FileTree.keptBy_makeWithin t _

/-- Putting a file leaves the directory above the place of a path. -/
theorem Parented.put (h : Parented t path) {place : Place} (hplace : t.entry? place ≠ some .directory)
    (e : Entry) : Parented (t.put place e) path := by
  intro parent hparent
  obtain hcurrent | hdirectory := h parent hparent
  · exact .inl hcurrent
  · exact .inr (FileTree.isDirectory_put hplace e hdirectory)

/-- Whether the file of a writer is at a path, with its bytes, and the directory above it is there. -/
structure KeepsAt (t : FileTree) (path : String) (bytes : Bytes) : Prop where
  holds : t.HoldsFile path bytes
  parented : Parented t path

namespace KeepsAt

/-- A file that is kept is gone on with when it is opened. -/
theorem openAt (h : KeepsAt t path bytes) (first last : UInt64) :
    BootstrapWriter.openAt t path first last = (t, resume bytes) := by
  have hbytes : BootstrapFile.bytesAt t path = .ok bytes := mapError_eq_ok_iff.mpr h.holds.readBytes
  rw [BootstrapWriter.openAt, h.parented.makeParent]
  simp only [h.holds.contains, if_true, hbytes]

/-- What is written to it is kept. -/
theorem saveBytes (h : KeepsAt t path bytes) (other : Bytes) :
    KeepsAt (BootstrapWriter.saveBytes t path other) path other := by
  obtain ⟨place, hplace, hfile, hfree, hput⟩ := h.holds.overwrite_eq_put other
  rw [BootstrapWriter.saveBytes, hplace]
  dsimp only
  rw [hput]
  exact ⟨FileTree.holdsFile_put hplace hfile hfree other, h.parented.put hfile _⟩

end KeepsAt

/-- A tree with one file in the current directory. -/
def treeWith (bytes : Bytes) : FileTree := FileTree.put {} ["chain.dat"] (.file bytes)

/-- A writer can go on with this file. -/
theorem keepsAt_treeWith (bytes : Bytes) : KeepsAt (treeWith bytes) "chain.dat" bytes where
  holds := FileTree.holdsFile_put (by decide +kernel) (by decide +kernel) (by decide +kernel) bytes
  parented parent hparent := by
    have hcurrent : Path.parent? "chain.dat" = some "" := by decide +kernel
    exact .inl (Option.some.inj (hparent.symm.trans hcurrent))

/-- Whether a file can be started at a path: the directories above it can be made, and nothing is there
then. -/
def FreshPath (t : FileTree) (path : String) : Prop :=
  ∃ t', makeParent t path = (t', .ok ()) ∧ t'.Creatable path

namespace FreshPath

/-- A path is fresh if the directories are made, nothing is there, and an empty file is written. -/
theorem of_isOk (hparent : (makeParent t path).2 = .ok ())
    (habsent : (makeParent t path).1.contains path = false)
    (hwrite : ((makeParent t path).1.writeBytes path []).isOk = true) : FreshPath t path := by
  refine ⟨(makeParent t path).1, Prod.ext rfl hparent, habsent, ?_⟩
  cases hwritten : (makeParent t path).1.writeBytes path [] with
  | error e => simp [hwritten, Except.isOk, Except.toBool] at hwrite
  | ok t' => exact ⟨t', rfl⟩

/-- A file can be started where there are none. -/
theorem empty : FreshPath {} "chain.dat" :=
  of_isOk (by decide +kernel) (by decide +kernel) (by decide +kernel)

/-- Nothing is at a fresh path. -/
theorem contains_eq_false (h : FreshPath t path) : t.contains path = false := by
  obtain ⟨t', hparent, hcreatable⟩ := h
  have hkept := keptBy_makeParent t path
  rw [hparent] at hkept
  rw [Bool.eq_false_iff]
  intro hthere
  have habsent := hcreatable.absent
  rw [hkept.contains hthere] at habsent
  cases habsent

/-- A writer that is opened at a fresh path starts the file there. -/
theorem openAt (h : FreshPath t path) (first last : UInt64) :
    ∃ t', BootstrapWriter.openAt t path first last = (t', .ok (create first last)) ∧
      KeepsAt t' path (create first last).file := by
  obtain ⟨t₁, hparent, hcreatable⟩ := h
  obtain ⟨place, hplace, hfree, hwrite⟩ := hcreatable.writeBytes_eq_put (create first last).file
  have hfile : t₁.entry? place ≠ some .directory := by simp [hfree]
  have hcreate : createAt t₁ path first last = .ok (_, create first last) :=
    bind_eq_ok_iff.mpr ⟨_, mapError_eq_ok_iff.mpr hwrite, rfl⟩
  refine ⟨_, ?_, FileTree.holdsFile_put hplace hfile (FileTree.standing?_eq_none hfree) _,
    (parented_of_makeParent hparent).put hfile _⟩
  rw [BootstrapWriter.openAt, hparent]
  dsimp only
  rw [if_neg (by simp [hcreatable.absent]), hcreate]

end FreshPath

end RingDepth.BootstrapWriter
