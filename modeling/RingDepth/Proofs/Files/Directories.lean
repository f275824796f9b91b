import RingDepth.Proofs.Files.Tree

/-!
# Directories that are made

Directories are made where nothing stands, so what a path leads to stays there. A path on which all
directories were made leads to a directory, and on such a path none is made again.
-/

namespace RingDepth.FileTree

variable {t t' : FileTree} {path : String}

/-- Whether all that paths lead to in a tree, they lead to in another one. -/
def KeptBy (t t' : FileTree) : Prop := ∀ path e, t.find path = .ok e → t'.find path = .ok e

namespace KeptBy

/-- A tree keeps its own. -/
theorem refl (t : FileTree) : t.KeptBy t := fun _ _ h => h

/-- What is kept twice is kept. -/
theorem trans {t'' : FileTree} (h : t.KeptBy t') (h' : t'.KeptBy t'') : t.KeptBy t'' :=
  fun path e he => h' path e (h path e he)

/-- What is at a path is still there. -/
theorem contains (h : t.KeptBy t') (hpath : t.contains path = true) : t'.contains path = true := by
  obtain ⟨e, he⟩ := contains_iff.mp hpath
  exact contains_iff.mpr ⟨e, h path e he⟩

end KeptBy

/-- A directory is made by putting it where nothing stands. -/
theorem makeDirectory_eq_put (h : t.makeDirectory path = .ok t') :
    ∃ place, t.newPlace? path = .ok (some place) ∧ t.entry? place = none ∧
      t' = t.put place .directory := by
  obtain ⟨found, hfound, hbody⟩ := bind_eq_ok_iff.mp h
  split at hbody
  · cases hbody
  · rename_i place
    split at hbody
    · cases hbody
    · rename_i hfree
      exact ⟨place, hfound, by simpa using hfree, (Except.ok.inj hbody).symm⟩

/-- Making a directory takes nothing away. -/
theorem keptBy_makeDirectory (h : t.makeDirectory path = .ok t') : t.KeptBy t' := by
  obtain ⟨place, -, hfree, rfl⟩ := makeDirectory_eq_put h
  intro other e he
  exact find_put (by simp [hfree]) _ (by simp [hfree]) he

/-- A directory that was made is there. -/
theorem isDirectory_makeDirectory (h : t.makeDirectory path = .ok t') : t'.isDirectory path = true := by
  obtain ⟨place, hplace, hfree, rfl⟩ := makeDirectory_eq_put h
  obtain ⟨hcheck, hnames⟩ := foldlM_follow_of_newPlace? hplace
  have hentry : entry? (t.put place .directory) place = some .directory :=
    entry?_put_self (standing?_eq_none hfree) _
  have hnames' : (Path.names path).foldlM (t.put place .directory).follow (Path.start path) = .ok place :=
    foldlM_follow_put (by simp [hfree]) _ hnames
  refine isDirectory_iff.mpr (find_eq_ok_iff.mpr ⟨place, ?_, hentry⟩)
  refine bind_eq_ok_iff.mpr ⟨(), hcheck, bind_eq_ok_iff.mpr ⟨place, hnames', ?_⟩⟩
  -- A slash at the end asks for the directory that now stands there.
  split
  · refine bind_eq_ok_iff.mpr ⟨(), ?_, rfl⟩
    rw [checkDirectory, hentry]
  · rfl

/-- A directory stands at every place from which a name leads on. -/
theorem checkDirectory_of_follow {place next : Place} {name : String}
    (h : t.follow place name = .ok next) : t.checkDirectory place = .ok () := by
  obtain ⟨⟨⟩, hdirectory, -⟩ := bind_eq_ok_iff.mp h
  exact hdirectory

/-- A directory stands where a path starts. -/
theorem checkDirectory_start (t : FileTree) (path : String) : t.checkDirectory (Path.start path) = .ok () := by
  rw [Path.start]
  split
  · rfl
  · rfl

/-- A path makes nothing, or something at the place to which its names lead. -/
theorem newPlace?_of_foldlM_follow {place : Place} (hcheck : Path.check path = .ok ())
    (hnames : (Path.names path).foldlM t.follow (Path.start path) = .ok place) :
    t.newPlace? path = .ok none ∨ t.newPlace? path = .ok (some place) := by
  rw [newPlace?, hcheck]
  cases hlast : (Path.names path).getLast? with
  | none =>
    rw [List.getLast?_eq_none_iff] at hlast
    rw [hlast]
    left
    refine bind_eq_ok_iff.mpr ⟨(), rfl, bind_eq_ok_iff.mpr ⟨Path.start path, rfl, ?_⟩⟩
    exact bind_eq_ok_iff.mpr ⟨(), checkDirectory_start t path, rfl⟩
  | some name =>
    rw [← List.dropLast_append_getLast? name hlast, List.foldlM_append] at hnames
    obtain ⟨directory, hdirectory, hbelow⟩ := bind_eq_ok_iff.mp hnames
    obtain ⟨next, hnext, heq⟩ := bind_eq_ok_iff.mp hbelow
    obtain rfl : next = place := Except.ok.inj heq
    have hstands := checkDirectory_of_follow hnext
    simp only [bind, Except.bind, hdirectory, hstands, hlast, hnext]
    split
    · exact .inl rfl
    · exact .inr rfl

/-- Where a directory is, none is made. -/
theorem makeDirectory_of_isDirectory (h : t.isDirectory path = true) :
    t.makeDirectory path = .error .exists := by
  obtain ⟨place, hplace, hentry⟩ := find_eq_ok_iff.mp (isDirectory_iff.mp h)
  obtain ⟨⟨⟩, hcheck, hbody⟩ := bind_eq_ok_iff.mp hplace
  obtain ⟨last, hnames, hend⟩ := bind_eq_ok_iff.mp hbody
  have hlast : last = place := by
    split at hend
    · obtain ⟨⟨⟩, -, heq⟩ := bind_eq_ok_iff.mp hend
      exact Except.ok.inj heq
    · exact Except.ok.inj hend
  subst hlast
  rw [makeDirectory]
  obtain hnew | hnew := newPlace?_of_foldlM_follow hcheck hnames
  · rw [hnew]
    rfl
  · rw [hnew]
    simp only [bind, Except.bind, hentry, Option.isSome_some, if_true]
    rfl

/-- Nor are those above it. -/
theorem makeWithin_of_isDirectory (h : t.isDirectory path = true) (above : List String) :
    t.makeWithin (path :: above) = (t, .ok ()) := by
  simp only [makeWithin, makeDirectory_of_isDirectory h, h, if_true]

/-- Making directories takes nothing away, whatever comes of it. -/
theorem keptBy_makeWithin (t : FileTree) (paths : List String) : t.KeptBy (t.makeWithin paths).1 := by
  induction paths generalizing t with
  | nil => exact .refl t
  | cons path above ih =>
    rw [makeWithin]
    split
    · rename_i made hmade
      exact keptBy_makeDirectory hmade
    · have habove := ih t
      split
      · rename_i t₁ e h₁
        rw [h₁] at habove
        exact habove
      · rename_i t₁ h₁
        rw [h₁] at habove
        split
        · rename_i made hmade
          exact habove.trans (keptBy_makeDirectory hmade)
        · exact habove
    · exact .refl t

/-- If nothing failed because the directory was there, then it was. -/
theorem isDirectory_of_there {e : FileError}
    (h : (t, if t.isDirectory path = true then .ok () else .error e) = (t', Except.ok ())) :
    t'.isDirectory path = true := by
  obtain ⟨rfl, hresult⟩ := Prod.mk.inj h
  split at hresult
  · assumption
  · cases hresult

/-- A directory that was to be made with those above it is there if nothing failed. -/
theorem isDirectory_makeWithin {above : List String}
    (h : t.makeWithin (path :: above) = (t', .ok ())) : t'.isDirectory path = true := by
  rw [makeWithin] at h
  split at h
  · rename_i made hmade
    cases h
    exact isDirectory_makeDirectory hmade
  · split at h
    · cases h
    · split at h
      · rename_i made hmade
        cases h
        exact isDirectory_makeDirectory hmade
      · exact isDirectory_of_there h
  · exact isDirectory_of_there h

end RingDepth.FileTree
