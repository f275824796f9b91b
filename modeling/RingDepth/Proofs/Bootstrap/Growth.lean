import RingDepth.Proofs.Bootstrap.Opening
import RingDepth.Proofs.Bootstrap.Supply

/-!
# Files that grow

Each export to a path adds chunks behind those of the file that is there. The last chunk of an export may be
short and is never filled up, and the header stays as the first export wrote it. So the height at which the
next export goes on is found by counting the frames of all chunks, and every file that was put together in
this way is counted and read without a fault.

An export that ends well adds the packages of all heights up to the last one that it wants. One that fails
between adds those that filled whole chunks before the failure, and all others leave the file as it is.
-/

namespace RingDepth

/-- A bootstrap file and what it carries: packages from a first height on. -/
structure ChainFile where
  bytes : Bytes
  first : UInt64
  packages : List BlockPackage

namespace ChainFile

/-- The height behind the last package. -/
def next (f : ChainFile) : ℕ := f.first.toNat + f.packages.length

/-- Whether a file is at a path, reads back as its packages without a fault, and is counted. -/
structure At (f : ChainFile) (t : FileTree) (path : String) : Prop where
  bytes : t.readBytes path = .ok f.bytes
  carries : BootstrapFile.Carries f.bytes f.packages
  counted : BootstrapFile.countBlocks f.bytes = .ok (f.packages.length, f.first)

/-- What is at a path, if anything is. -/
def FoundAt (t : FileTree) (path : String) : Option ChainFile → Prop
  | none => t.contains path = false
  | some f => f.At t path

/-- The file that is at a path has as many packages as are counted there. -/
theorem FoundAt.of_countBlocksAt {t : FileTree} {path : String} {file : Option ChainFile}
    (h : FoundAt t path file) {count : ℕ} {first : UInt64}
    (hcount : BootstrapFile.countBlocksAt t path = .ok (count, first)) :
    ∃ f, file = some f ∧ f.At t path ∧ f.first = first ∧ f.packages.length = count := by
  obtain ⟨bytes, hbytes, hcounted⟩ := bind_eq_ok_iff.mp hcount
  rw [BootstrapFile.bytesAt, mapError_eq_ok_iff] at hbytes
  cases file with
  | none =>
    obtain ⟨e, he, -⟩ := bind_eq_ok_iff.mp hbytes
    have hthere := FileTree.contains_iff.mpr ⟨e, he⟩
    rw [show t.contains path = false from h] at hthere
    cases hthere
  | some f =>
    rw [h.bytes] at hbytes
    obtain rfl := Except.ok.inj hbytes
    rw [h.counted] at hcounted
    obtain ⟨rfl, rfl⟩ := Prod.mk.inj (Except.ok.inj hcounted)
    exact ⟨f, rfl, h, rfl, rfl⟩

/-- Whether a file is another one with some packages added, behind bytes that stay as they are. The packages
are counted from the same height. -/
structure Grown (f f' : ChainFile) (added : List BlockPackage) : Prop where
  bytes : f.bytes <+: f'.bytes
  first : f'.first = f.first
  packages : f'.packages = f.packages ++ added

/-- A file is itself with no packages added. -/
theorem Grown.refl (f : ChainFile) : f.Grown f [] := ⟨List.prefix_refl _, rfl, (List.append_nil _).symm⟩

/-- The file with which an export goes on: the one that is there, or else one without packages that begins
at the wanted height. -/
def OpenedAs (start : UInt64) : Option ChainFile → ChainFile → Prop
  | some found, f => f = found
  | none, f => f.first = start ∧ f.packages = []

/-- Whether a file is put together as those are that are written: chunks that may be read behind a header. The
lengths in its packages can be written, and the height behind the last one can be counted. -/
structure Sound (f : ChainFile) : Prop where
  chunked : ∃ (header : BootstrapHeader) (chunks : List (List BlockPackage)),
    header.file.headerSize.toNat = BootstrapHeader.size ∧ header.blocks.first = f.first ∧
      f.bytes = header.encode ++ bodyOf chunks ∧ chunks.flatten = f.packages ∧
      ∀ ps ∈ chunks, (chunkOf ps).length ≤ maxChunkSize
  fits : ∀ p ∈ f.packages, Codec.Fits p
  next_lt : f.next < UInt64.size

/-- A file with some chunks added. -/
def grow (f : ChainFile) (chunks : List (List BlockPackage)) : ChainFile :=
  { f with bytes := f.bytes ++ bodyOf chunks, packages := f.packages ++ chunks.flatten }

/-- The packages of these chunks are added. -/
theorem grown_grow (f : ChainFile) (chunks : List (List BlockPackage)) :
    f.Grown (f.grow chunks) chunks.flatten :=
  ⟨List.prefix_append _ _, rfl, rfl⟩

/-- The file ends higher by their number. -/
theorem next_grow (f : ChainFile) (chunks : List (List BlockPackage)) :
    (f.grow chunks).next = f.next + chunks.flatten.length := by
  rw [next, next, grow, List.length_append, Nat.add_assoc]

namespace Sound

variable {f : ChainFile}

/-- A file that was started for some heights is sound. -/
theorem create (first last : UInt64) :
    ChainFile.Sound { bytes := (BootstrapWriter.create first last).file, first, packages := [] } where
  chunked := ⟨_, [], rfl, rfl, (List.append_nil _).symm, rfl, List.forall_mem_nil _⟩
  fits := List.forall_mem_nil _
  next_lt := first.toNat_lt

/-- A sound file stays sound when chunks are added that may be read. -/
theorem grow (h : f.Sound) {chunks : List (List BlockPackage)}
    (hfits : ∀ p ∈ chunks.flatten, Codec.Fits p)
    (hsize : ∀ ps ∈ chunks, (chunkOf ps).length ≤ maxChunkSize)
    (hroom : f.next + chunks.flatten.length < UInt64.size) : (f.grow chunks).Sound where
  chunked := by
    obtain ⟨header, old, hheader, hfirst, hbytes, hold, hsizes⟩ := h.chunked
    refine ⟨header, old ++ chunks, hheader, hfirst, ?_, ?_, ?_⟩
    · rw [ChainFile.grow, hbytes, bodyOf, bodyOf, bodyOf, List.flatMap_append, List.append_assoc]
    · rw [ChainFile.grow, List.flatten_append, hold]
    · exact List.forall_mem_append.mpr ⟨hsizes, hsize⟩
  fits := List.forall_mem_append.mpr ⟨h.fits, hfits⟩
  next_lt := f.next_grow chunks ▸ hroom

/-- It stays sound when the chunks hold the first of some packages that a store supplies, as many of which can
be counted. -/
theorem grow_of_supplies {σ : Type} [Store σ] {s : σ} (h : f.Sound) {supplied : List BlockPackage}
    (hsupplied : Export.Supplies s f.next supplied) (hroom : f.next + supplied.length < UInt64.size)
    {chunks : List (List BlockPackage)} (hfirst : chunks.flatten <+: supplied)
    (hsize : ∀ ps ∈ chunks, (chunkOf ps).length ≤ maxChunkSize) : (f.grow chunks).Sound := by
  apply h.grow (fun p hp => hsupplied.fits (hfirst.subset hp)) hsize
  have := hfirst.length_le
  omega

/-- The packages of a sound file are read. -/
theorem carries (h : f.Sound) : BootstrapFile.Carries f.bytes f.packages := by
  obtain ⟨header, chunks, hheader, -, hbytes, hpackages, hsize⟩ := h.chunked
  rw [hbytes, ← hpackages]
  exact BootstrapFile.carries_of_body hheader (fun p hp => h.fits p (hpackages ▸ hp)) hsize

/-- They are counted. -/
theorem countBlocks (h : f.Sound) :
    BootstrapFile.countBlocks f.bytes = .ok (f.packages.length, f.first) := by
  obtain ⟨header, chunks, hheader, hfirst, hbytes, hpackages, hsize⟩ := h.chunked
  have hread : BootstrapFile.read f.bytes = .ok { header, body := bodyOf chunks } := by
    rw [BootstrapFile.read, hbytes, BootstrapHeader.read_encode_append header hheader]
    rfl
  have hcount := BootstrapFile.count_of_body (f := { header, body := bodyOf chunks }) rfl hsize
  rw [hpackages] at hcount
  exact bind_eq_ok_iff.mpr ⟨_, hread, bind_eq_ok_iff.mpr ⟨_, hcount, by rw [← hfirst]; rfl⟩⟩

end Sound

/-- Whether a writer goes on with the file at a path and has added nothing to it so far. -/
structure OpenedBy (f : ChainFile) (w : BootstrapWriter) (t : FileTree) (path : String) : Prop where
  sound : f.Sound
  keeps : BootstrapWriter.KeepsAt t path f.bytes
  file : w.file = f.bytes
  adding : w.Adding f.bytes []
  next : w.nextHeight.toNat = f.next

/-- A sound file is gone on with. -/
theorem Sound.resume {f : ChainFile} (h : f.Sound) {t : FileTree} {path : String}
    (hkeeps : BootstrapWriter.KeepsAt t path f.bytes) :
    ∃ w, BootstrapWriter.resume f.bytes = .ok w ∧ f.OpenedBy w t path := by
  have hlt := h.next_lt
  rw [ChainFile.next] at hlt
  have hcount : (UInt64.ofNat f.packages.length).toNat = f.packages.length :=
    UInt64.toNat_ofNat_of_lt' (by omega)
  obtain ⟨next, hnext⟩ := exists_addCounter (ε := BootstrapError) (a := f.first)
    (b := UInt64.ofNat f.packages.length) (by rw [hcount]; exact hlt)
  refine ⟨{ file := f.bytes, nextHeight := next }, ?_, h, hkeeps, rfl, ?_, ?_⟩
  · exact bind_eq_ok_iff.mpr
      ⟨_, monadLift_eq_ok_iff.mpr h.countBlocks, bind_eq_ok_iff.mpr ⟨next, hnext, rfl⟩⟩
  · exact ⟨BootstrapWriter.holds_nil rfl rfl, rfl, rfl⟩
  · rw [addCounter_eq_ok_iff.mp hnext, hcount, ChainFile.next]

/-- What is kept at the path of the exports: nothing yet, or a sound file. -/
def KeptAt (t : FileTree) (path : String) : Option ChainFile → Prop
  | none => BootstrapWriter.FreshPath t path
  | some f => f.Sound ∧ BootstrapWriter.KeepsAt t path f.bytes

namespace KeptAt

variable {t : FileTree} {path : String} {file : Option ChainFile}

/-- What is kept is found. -/
theorem foundAt (h : KeptAt t path file) : FoundAt t path file := by
  cases file with
  | none => exact BootstrapWriter.FreshPath.contains_eq_false h
  | some f =>
    obtain ⟨hsound, hkeeps⟩ := h
    exact ⟨hkeeps.holds.readBytes, hsound.carries, hsound.countBlocks⟩

/-- It is opened by a writer. -/
theorem openAt (h : KeptAt t path file) (start last : UInt64) :
    ∃ t' w f, BootstrapWriter.openAt t path start last = (t', .ok w) ∧ OpenedAs start file f ∧
      f.OpenedBy w t' path := by
  cases file with
  | none =>
    obtain ⟨t', hopen, hkeeps⟩ := BootstrapWriter.FreshPath.openAt h start last
    refine ⟨t', _, _, hopen, ⟨rfl, rfl⟩, .create start last, hkeeps, rfl, ?_, rfl⟩
    exact ⟨BootstrapWriter.holds_create start last, rfl, rfl⟩
  | some f =>
    obtain ⟨hsound, hkeeps⟩ := h
    obtain ⟨w, hresume, hopened⟩ := hsound.resume hkeeps
    exact ⟨t, w, f, (hkeeps.openAt start last).trans (by rw [hresume]), rfl, hopened⟩

end KeptAt

end ChainFile

namespace Export

variable {σ : Type} [Store σ] {s : σ} {start stop : UInt64}

/-- Whether a height is the last one that an export wants: the one that is asked for if it lies between the
first block and the last, and else the last block. -/
def WantsUpTo (s : σ) (stop last : UInt64) : Prop :=
  ∃ count, Store.blockCount s = .ok count ∧ count ≠ 0 ∧
    last = if 0 < stop ∧ stop < count - 1 then stop else count - 1

/-- How an export of a store ends, given what is at its path before and after. -/
inductive Ends (s : σ) (start stop : UInt64) (before : Option ChainFile) :
    Option ChainFile → Except (Halt BootstrapError) ExportSummary → Prop
  /-- There are no blocks, and nothing is changed. -/
  | empty (hcount : Store.blockCount s = .ok 0) :
      Ends s start stop before before (.error (.failure .emptyLedger))
  /-- The file that is there ends below the wanted start, and nothing is changed. -/
  | gap {last : UInt64} {f : ChainFile} (hlast : WantsUpTo s stop last) (hbefore : before = some f)
      (hgap : f.next < start.toNat) :
      Ends s start stop before before (.error (.failure (.gap start)))
  /-- The packages of all heights from the end of the file up to the last one that is wanted are added, of
  which there are none if the file ends behind it. -/
  | finished {first last : UInt64} {f f' : ChainFile} {added : List BlockPackage}
      (hlast : WantsUpTo s stop last) (hopened : ChainFile.OpenedAs start before f)
      (hstart : start.toNat ≤ f.next) (hfirst : first.toNat = f.next)
      (hsupplied : Supplies s f.next added) (hlength : added.length = last.toNat + 1 - f.next)
      (hgrown : f.Grown f' added) :
      Ends s start stop before (some f') (.ok { first, last, written := added.length })
  /-- The package of a height is not supplied that is not above the last one. Of the packages of the heights
  before it those are added that fill whole chunks. -/
  | broken {last height : UInt64} {f f' : ChainFile} {supplied : List BlockPackage} {e : BootstrapError}
      (hlast : WantsUpTo s stop last) (hopened : ChainFile.OpenedAs start before f)
      (hstart : start.toNat ≤ f.next) (hsupplied : Supplies s f.next supplied)
      (hheight : height.toNat = f.next + supplied.length) (hle : height ≤ last)
      (hfailed : packageAt s height = .error e)
      (hgrown : f.Grown f'
        (supplied.take (packagesPerChunk * (supplied.length / packagesPerChunk)))) :
      Ends s start stop before (some f') (.error (.failure e))

/-- However an export ends that leaves a file, this is the one with which it went on and some packages of the
store, or none. -/
theorem Ends.exists_grown {before : Option ChainFile} {f' : ChainFile}
    {result : Except (Halt BootstrapError) ExportSummary} (h : Ends s start stop before (some f') result) :
    ∃ f added, ChainFile.OpenedAs start before f ∧ Supplies s f.next added ∧ f.Grown f' added := by
  cases h with
  | empty => exact ⟨f', [], rfl, .nil _ _, .refl f'⟩
  | gap => exact ⟨f', [], rfl, .nil _ _, .refl f'⟩
  | finished _ hopened _ _ hsupplied _ hgrown => exact ⟨_, _, hopened, hsupplied, hgrown⟩
  | broken _ hopened _ hsupplied _ _ _ hgrown => exact ⟨_, _, hopened, hsupplied.take _, hgrown⟩

/-- The height behind the last one that is wanted can be counted. -/
theorem WantsUpTo.lt {s : σ} {stop last : UInt64} (h : WantsUpTo s stop last) :
    last.toNat + 1 < UInt64.size := by
  obtain ⟨count, -, hne, rfl⟩ := h
  have hcount : count.toNat < UInt64.size := count.toNat_lt
  have htip := Ledger.toNat_below hne
  split
  · rename_i hstop
    have hlt := UInt64.lt_iff_toNat_lt.mp hstop.2
    omega
  · have hpos : count.toNat ≠ 0 := fun hzero => hne (UInt64.toNat_inj.mp hzero)
    omega

/-- If none is asked for, it is the height of the last block. -/
theorem WantsUpTo.toNat_zero {s : σ} {last count : UInt64} (h : WantsUpTo s 0 last)
    (hcount : Store.blockCount s = .ok count) : last.toNat + 1 = count.toNat := by
  obtain ⟨found, hfound, hne, rfl⟩ := h
  obtain rfl : found = count := Except.ok.inj (hfound.symm.trans hcount)
  have hpos : found.toNat ≠ 0 := fun hzero => hne (UInt64.toNat_inj.mp hzero)
  rw [if_neg fun hstop => UInt64.lt_irrefl 0 hstop.1, Ledger.toNat_below hne]
  omega

/-- A store without blocks has no last height. -/
theorem lastHeight_of_empty {s : σ} (hcount : Store.blockCount s = .ok 0) :
    lastHeight s stop = .error .emptyLedger := by
  rw [lastHeight, hcount]
  rfl

/-- In a store with blocks it is the one that is wanted. -/
theorem lastHeight_of_ne_zero {s : σ} {count : UInt64} (hcount : Store.blockCount s = .ok count)
    (hne : count ≠ 0) (stop : UInt64) : ∃ last, lastHeight s stop = .ok last ∧ WantsUpTo s stop last := by
  refine ⟨_, ?_, count, hcount, hne, rfl⟩
  rw [lastHeight, hcount]
  simp only [mapError_ok, bind, Except.bind, if_neg hne]
  rfl

/-- An export to a file that ends at the wanted start or above ends well, or when a package is not
supplied. -/
theorem ends_run {before : Option ChainFile} {f : ChainFile} {w : BootstrapWriter} {t : FileTree}
    {path : String} {last : UInt64} (hw : f.OpenedBy w t path)
    (hopened : ChainFile.OpenedAs start before f) (hlast : WantsUpTo s stop last)
    (hstart : start.toNat ≤ f.next) (hchunks : ChunksFit s) :
    ∃ f', f'.Sound ∧ f'.bytes = (run s w start last).1 ∧
      Ends s start stop before (some f') (run s w start last).2 := by
  have hlt := hlast.lt
  have hnext_lt := hw.sound.next_lt
  have hnotBelow : ¬w.nextHeight < start := by
    rw [UInt64.lt_iff_toNat_lt, hw.next]
    omega
  have hroom : w.nextHeight.toNat + (last.toNat + 1 - f.next) < UInt64.size := by
    rw [hw.next]
    omega
  obtain ⟨added, hsupplied, hadding, hend⟩ := writeBlocks_adding (s := s) hw.adding rfl hroom
  rw [hw.next] at hsupplied hend
  have hruns : RunsFit added := hchunks _ _ hsupplied
  rw [List.nil_append] at hadding
  rw [run, if_neg hnotBelow, hw.next]
  cases hwrite : writeBlocks s (last.toNat + 1 - f.next) w.nextHeight w with
  | mk w' result =>
    rw [hwrite] at hadding hend
    dsimp only at hadding hend ⊢
    obtain ⟨rfl, hlength⟩ | ⟨hlength, height, e, hheight, hfailed, rfl⟩ := hend
    · obtain ⟨chunks, hfile, rfl, hsize⟩ := hadding.holds.flush hruns
      have hsound := hw.sound.grow_of_supplies hsupplied (by omega) (List.prefix_refl _) hsize
      have hends := Ends.finished hlast hopened hstart hw.next hsupplied hlength (f.grown_grow chunks)
      rw [← hadding.written] at hends
      exact ⟨f.grow chunks, hsound, hfile.symm, hends⟩
    · obtain ⟨chunks, hfile, hflatten, hsize⟩ := hadding.file hruns
      have hfirst : chunks.flatten <+: added := hflatten ▸ List.take_prefix _ _
      have hsound := hw.sound.grow_of_supplies hsupplied (by omega) hfirst hsize
      have hle : height ≤ last := by
        rw [UInt64.le_iff_toNat_le]
        omega
      have hgrown := f.grown_grow chunks
      rw [hflatten] at hgrown
      exact ⟨f.grow chunks, hsound, hfile.symm,
        .broken hlast hopened hstart hsupplied hheight hle hfailed hgrown⟩

/-- An export to a file that ends below the wanted start changes nothing. -/
theorem run_of_gap {f : ChainFile} {w : BootstrapWriter} {t : FileTree} {path : String} {last : UInt64}
    (hw : f.OpenedBy w t path) (hgap : f.next < start.toNat) :
    run s w start last = (f.bytes, .error (.failure (.gap start))) := by
  have hbelow : w.nextHeight < start := by
    rw [UInt64.lt_iff_toNat_lt, hw.next]
    exact hgap
  rw [run, if_pos hbelow, hw.file]

/-- Every export of a store whose blocks can be counted and whose chunks fit ends in one of the ways, and
keeps what is at its path. -/
theorem ends_toPath {t : FileTree} {path : String} {before : Option ChainFile}
    (hbefore : ChainFile.KeptAt t path before) (hcount : ∃ count, Store.blockCount s = .ok count)
    (hchunks : ChunksFit s) (start stop : UInt64) :
    ∃ after, ChainFile.KeptAt (toPath s t path start stop).1 path after ∧
      Ends s start stop before after (toPath s t path start stop).2 := by
  obtain ⟨count, hcount⟩ := hcount
  by_cases hzero : count = 0
  · subst hzero
    rw [toPath, lastHeight_of_empty hcount]
    exact ⟨before, hbefore, .empty hcount⟩
  · obtain ⟨last, hlast, hwants⟩ := lastHeight_of_ne_zero hcount hzero stop
    obtain ⟨t', w, f, hopen, hopened, hw⟩ := hbefore.openAt start last
    rw [toPath, hlast]
    simp only [hopen]
    by_cases hstart : start.toNat ≤ f.next
    · obtain ⟨f', hsound, hbytes, hend⟩ := ends_run hw hopened hwants hstart hchunks
      refine ⟨some f', ⟨hsound, ?_⟩, hend⟩
      rw [hbytes]
      exact hw.keeps.saveBytes _
    · have hgap : f.next < start.toNat := Nat.lt_of_not_le hstart
      have hfound : before = some f := by
        cases before with
        | none =>
          -- A file that is started ends where it begins.
          obtain ⟨hfirst, hpackages⟩ := hopened
          rw [ChainFile.next, hfirst, hpackages] at hgap
          exact absurd hgap (Nat.lt_irrefl _)
        | some found => rw [hopened]
      rw [run_of_gap hw hgap]
      exact ⟨before, hfound ▸ ⟨hw.sound, hw.keeps.saveBytes _⟩, .gap hwants hfound hgap⟩

end Export

end RingDepth
