import Mathlib.Data.List.Basic
import RingDepth.Files.Tree
import RingDepth.Proofs.Outcome

/-!
# Files that are made and read back

A file that is put at a place at which no directory stands changes no other place, and so no path on which
another one is reached. A path at which a file was made leads to it from then on: the bytes of the file
may be replaced, and they read back as they were written last.
-/

namespace RingDepth.FileTree

variable {t : FileTree} {place : Place} {path : String} {bytes : Bytes}

/-- Whether nothing is at a path and a file can be made there. -/
structure Creatable (t : FileTree) (path : String) : Prop where
  absent : t.contains path = false
  writable : ∃ t', t.writeBytes path [] = .ok t'

/-- Whether a path leads to a file with some bytes, which does not stand there of its own accord. -/
def HoldsFile (t : FileTree) (path : String) (bytes : Bytes) : Prop :=
  ∃ place, t.resolve path = .ok place ∧ standing? place = none ∧ t.entry? place = some (.file bytes)

/-- What is put where nothing stands of its own accord stands there. -/
theorem entry?_put_self (hfree : standing? place = none) (e : Entry) :
    entry? (t.put place e) place = some e := by
  rw [ entry?, hfree, put, Std.ExtTreeMap.getElem?_insert_self]
  rfl

/-- What stands at other places stays. -/
theorem entry?_put_of_ne {other : Place} (hne : other ≠ place) (e : Entry) :
    entry? (t.put place e) other = t.entry? other := by
  rw [ entry?, entry?, put, Std.ExtTreeMap.getElem?_insert]
  simp [Ne.symm hne]

/-- Nothing stands of its own accord where nothing stands. -/
theorem standing?_eq_none (hfree : t.entry? place = none) : standing? place = none := by
  rw [ entry?] at hfree
  cases hstanding : standing? place with
  | none => rfl
  | some e => simp [hstanding] at hfree

/-- Putting an entry at a place without a directory leaves all directories. -/
theorem checkDirectory_put (hplace : t.entry? place ≠ some .directory) (e : Entry) {other : Place}
    (h : t.checkDirectory other = .ok ()) : (t.put place e).checkDirectory other = .ok () := by
  have hne : other ≠ place := by
    rintro rfl
    rw [checkDirectory] at h
    split at h
    · exact hplace ‹_›
    · cases h
    · cases h
  rwa [checkDirectory, entry?_put_of_ne hne]

/-- So it leaves the way of a path. -/
theorem foldlM_follow_put (hplace : t.entry? place ≠ some .directory) (e : Entry) {names : List String}
    {first last : Place} (h : names.foldlM t.follow first = .ok last) :
    names.foldlM (t.put place e).follow first = .ok last := by
  induction names generalizing first with
  | nil => exact h
  | cons name rest ih =>
    obtain ⟨next, hnext, hrest⟩ := bind_eq_ok_iff.mp h
    obtain ⟨⟨⟩, hdirectory, hname⟩ := bind_eq_ok_iff.mp hnext
    exact bind_eq_ok_iff.mpr
      ⟨next, bind_eq_ok_iff.mpr ⟨(), checkDirectory_put hplace e hdirectory, hname⟩, ih hrest⟩

/-- A path leads to where it led before an entry was put at a place without a directory. -/
theorem resolve_put (hplace : t.entry? place ≠ some .directory) (e : Entry) {other : Place}
    (h : t.resolve path = .ok other) : (t.put place e).resolve path = .ok other := by
  obtain ⟨⟨⟩, hcheck, hbody⟩ := bind_eq_ok_iff.mp h
  obtain ⟨found, hfound, hend⟩ := bind_eq_ok_iff.mp hbody
  refine bind_eq_ok_iff.mpr ⟨(), hcheck, bind_eq_ok_iff.mpr
    ⟨found, foldlM_follow_put hplace e hfound, ?_⟩⟩
  by_cases hslash : path.endsWith "/" = true
  · rw [if_pos hslash] at hend ⊢
    obtain ⟨⟨⟩, hdirectory, heq⟩ := bind_eq_ok_iff.mp hend
    exact bind_eq_ok_iff.mpr ⟨(), checkDirectory_put hplace e hdirectory, heq⟩
  · rw [if_neg hslash] at hend ⊢
    exact hend

/-- What a path leads to stands at the place to which it leads. -/
theorem find_eq_ok_iff {e : Entry} :
    t.find path = .ok e ↔ ∃ place, t.resolve path = .ok place ∧ t.entry? place = some e := by
  constructor
  · intro h
    obtain ⟨place, hplace, hentry⟩ := bind_eq_ok_iff.mp h
    split at hentry
    · rename_i found hfound
      exact ⟨place, hplace, Except.ok.inj hentry ▸ hfound⟩
    · cases hentry
  · intro h
    obtain ⟨place, hplace, hentry⟩ := h
    refine bind_eq_ok_iff.mpr ⟨place, hplace, ?_⟩
    rw [hentry]
    rfl

/-- Something is at a path if the path leads to an entry. -/
theorem contains_iff : t.contains path = true ↔ ∃ e, t.find path = .ok e := by
  rw [contains]
  cases t.find path with
  | error e => simp [Except.isOk, Except.toBool]
  | ok e => simp [Except.isOk, Except.toBool]

/-- A path leads to a directory if this is what is found there. -/
theorem isDirectory_iff : t.isDirectory path = true ↔ t.find path = .ok .directory := by
  rw [isDirectory]
  split
  · rename_i h
    simp [h]
  · rename_i h
    simpa using h

/-- A path leads to what it led to before an entry was put at a place without a directory, unless it led
there. -/
theorem find_put (hplace : t.entry? place ≠ some .directory) (e : Entry) {found : Entry}
    (hne : t.entry? place ≠ some found) (h : t.find path = .ok found) :
    (t.put place e).find path = .ok found := by
  obtain ⟨other, hother, hentry⟩ := find_eq_ok_iff.mp h
  have hapart : other ≠ place := by
    rintro rfl
    exact hne hentry
  exact find_eq_ok_iff.mpr ⟨other, resolve_put hplace e hother, (entry?_put_of_ne hapart e).trans hentry⟩

/-- The names of a path lead to the place at which it makes something. -/
theorem foldlM_follow_of_newPlace? (h : t.newPlace? path = .ok (some place)) :
    Path.check path = .ok () ∧ (Path.names path).foldlM t.follow (Path.start path) = .ok place := by
  obtain ⟨⟨⟩, hcheck, hbody⟩ := bind_eq_ok_iff.mp h
  obtain ⟨directory, hdirectory, hbelow⟩ := bind_eq_ok_iff.mp hbody
  obtain ⟨⟨⟩, -, hname⟩ := bind_eq_ok_iff.mp hbelow
  cases hlast : (Path.names path).getLast? with
  | none =>
    rw [hlast] at hname
    cases hname
  | some name =>
    rw [hlast] at hname
    dsimp only at hname
    split at hname
    · cases hname
    · obtain ⟨found, hfound, heq⟩ := bind_eq_ok_iff.mp hname
      obtain rfl : found = place := Option.some.inj (Except.ok.inj heq)
      refine ⟨hcheck, ?_⟩
      rw [← List.dropLast_append_getLast? name hlast, List.foldlM_append]
      exact bind_eq_ok_iff.mpr ⟨directory, hdirectory, bind_eq_ok_iff.mpr ⟨found, hfound, rfl⟩⟩

/-- A path that no slash ends leads to the place at which it makes something. -/
theorem resolve_of_newPlace? (h : t.newPlace? path = .ok (some place))
    (hslash : ¬path.endsWith "/" = true) : t.resolve path = .ok place := by
  obtain ⟨hcheck, hnames⟩ := foldlM_follow_of_newPlace? h
  exact bind_eq_ok_iff.mpr ⟨(), hcheck, bind_eq_ok_iff.mpr ⟨place, hnames, if_neg hslash⟩⟩

/-- A file that is put where a path leads is held there, if no directory stood there. -/
theorem holdsFile_put (hpath : t.resolve path = .ok place) (hplace : t.entry? place ≠ some .directory)
    (hfree : standing? place = none) (bytes : Bytes) :
    (t.put place (.file bytes)).HoldsFile path bytes :=
  ⟨place, resolve_put hplace _ hpath, hfree, entry?_put_self hfree _⟩

/-- It leaves all directories. -/
theorem isDirectory_put (hplace : t.entry? place ≠ some .directory) (e : Entry) {other : String}
    (h : t.isDirectory other = true) : (t.put place e).isDirectory other = true :=
  isDirectory_iff.mpr (find_put hplace e hplace (isDirectory_iff.mp h))

namespace HoldsFile

/-- The bytes of a file are read back. -/
theorem readBytes (h : t.HoldsFile path bytes) : t.readBytes path = .ok bytes := by
  obtain ⟨place, hplace, -, hentry⟩ := h
  exact bind_eq_ok_iff.mpr ⟨.file bytes, find_eq_ok_iff.mpr ⟨place, hplace, hentry⟩, rfl⟩

/-- Something is at the path of a file. -/
theorem contains (h : t.HoldsFile path bytes) : t.contains path = true := by
  obtain ⟨place, hplace, -, hentry⟩ := h
  exact contains_iff.mpr ⟨.file bytes, find_eq_ok_iff.mpr ⟨place, hplace, hentry⟩⟩

/-- Other bytes are put where the file stands. -/
theorem overwrite_eq_put (h : t.HoldsFile path bytes) (other : Bytes) :
    ∃ place, t.resolve path = .ok place ∧ t.entry? place ≠ some .directory ∧ standing? place = none ∧
      t.overwrite place other = t.put place (.file other) := by
  obtain ⟨place, hplace, hstanding, hentry⟩ := h
  refine ⟨place, hplace, by simp [hentry], hstanding, ?_⟩
  rw [FileTree.overwrite, hentry]

end HoldsFile

/-- What is written to a path at which nothing is, is put where nothing stands. -/
theorem Creatable.writeBytes_eq_put (h : t.Creatable path) (bytes : Bytes) :
    ∃ place, t.resolve path = .ok place ∧ t.entry? place = none ∧
      t.writeBytes path bytes = .ok (t.put place (.file bytes)) := by
  obtain ⟨_, hwrite⟩ := h.writable
  obtain ⟨found, hfound, hbody⟩ := bind_eq_ok_iff.mp hwrite
  split at hbody
  · cases hbody
  · rename_i place
    split at hbody
    · cases hbody
    · rename_i hallowed
      obtain ⟨hslash, -⟩ := not_or.mp hallowed
      have hplace := resolve_of_newPlace? hfound hslash
      have hfree : t.entry? place = none := by
        cases hentry : t.entry? place with
        | none => rfl
        | some e =>
          have hthere := contains_iff.mpr ⟨e, find_eq_ok_iff.mpr ⟨place, hplace, hentry⟩⟩
          rw [h.absent] at hthere
          cases hthere
      have hput : t.overwrite place bytes = t.put place (.file bytes) := by
        rw [FileTree.overwrite, hfree]
      refine ⟨place, hplace, hfree, bind_eq_ok_iff.mpr ⟨some place, hfound, ?_⟩⟩
      dsimp only
      rw [if_neg hallowed, hput]
      rfl

end RingDepth.FileTree
