import RingDepth.Proofs.Bootstrap.Cursor
import RingDepth.Proofs.Bootstrap.Export
import RingDepth.Proofs.Bootstrap.Session

/-!
# How packages are put into chunks

The packages of a file may be put into chunks in any way, as long as no chunk is too large to be read: into few
chunks or into many, and there may be chunks without a package at the beginning, at the end and between others.
Reading gives the packages in order and then the end, and the number of chunks is all that tells files apart
that have the same header and the same packages.
-/

namespace RingDepth.BootstrapFile

/-- Whether the bytes of a file read as some packages in a number of chunks, and then the end: when they are
read at once, with a cursor one after the other, and when they are counted from the height that the header
names. -/
structure ReadsAs (bytes : Bytes) (header : BootstrapHeader) (packages : List BlockPackage) (chunks : ℕ) :
    Prop where
  whole : ∃ f, read bytes = .ok f ∧ f.header = header ∧ f.packages = { items := packages, chunks }
  yields : ∃ f last, read bytes = .ok f ∧
    Cursor.Yields (readRecord BlockPackage) (.start f) (packages.map .ok) last ∧
      last.chunksRead = chunks ∧ last.next (readRecord BlockPackage) = (none, last)
  count : countBlocks bytes = .ok (packages.length, header.blocks.first)

/-- Whether files have the same header, the same packages and the same end, whatever their chunks are. -/
def ReadAlike (bytes bytes' : Bytes) : Prop :=
  ∃ f f', read bytes = .ok f ∧ read bytes' = .ok f' ∧ f.header = f'.header ∧
    f.packages.results = f'.packages.results ∧ countBlocks bytes = countBlocks bytes'

variable {start : Bytes} {header : BootstrapHeader} {groups : List (List BlockPackage)}

/-- A header with chunks behind it that may be read is put together of these. -/
theorem composed_of_groups (hstart : BootstrapHeader.read start = .ok (header, []))
    (hsize : ∀ ps ∈ groups, (chunkOf ps).length ≤ maxChunkSize) :
    ∃ f, read (start ++ bodyOf groups) = .ok f ∧ f.header = header ∧
      f.Composed (groups.map chunkOf) groups := by
  have hread : read start = .ok { header, body := [] } := map_eq_ok_iff.mpr ⟨_, hstart, rfl⟩
  have hnothing : Composed { header, body := [] } [] [] := ⟨rfl, List.forall_mem_nil _, .nil⟩
  exact ⟨_, read_append hread (bodyOf groups), rfl, hnothing.extend hsize⟩

/-- It reads as the packages in them. -/
theorem readsAs_groups (hstart : BootstrapHeader.read start = .ok (header, []))
    (hsize : ∀ ps ∈ groups, (chunkOf ps).length ≤ maxChunkSize) :
    ReadsAs (start ++ bodyOf groups) header groups.flatten groups.length := by
  obtain ⟨f, hread, rfl, hcomposed⟩ := composed_of_groups hstart hsize
  have hpackages := hcomposed.packages_eq
  rw [List.length_map] at hpackages
  refine ⟨⟨f, hread, rfl, hpackages⟩, ?yields, ?count⟩
  case yields =>
    obtain ⟨last, hyields, hchunks, hend⟩ := f.yields_contents (readRecord BlockPackage)
    rw [← BootstrapFile.packages, hpackages] at hyields hchunks
    have hresults : ({ items := groups.flatten, chunks := groups.length } : Contents BlockPackage).results =
        groups.flatten.map .ok := List.append_nil _
    rw [hresults] at hyields
    exact ⟨f, last, hread, hyields, hchunks, hend⟩
  case count => rw [hcomposed.whole.countBlocks hread, hpackages]

/-- What is read of a file does not depend on how its packages are put into chunks, of which some may be empty.
It is the packages of all chunks in order and then the end; a cursor has then loaded all the chunks. So files
with the same header and the same packages read the same. -/
theorem reads_groups (hstart : BootstrapHeader.read start = .ok (header, []))
    (hsize : ∀ ps ∈ groups, (chunkOf ps).length ≤ maxChunkSize) :
    ReadsAs (start ++ bodyOf groups) header groups.flatten groups.length ∧
      ∀ (start' : Bytes) (groups' : List (List BlockPackage)),
        BootstrapHeader.read start' = .ok (header, []) →
          (∀ ps ∈ groups', (chunkOf ps).length ≤ maxChunkSize) → groups'.flatten = groups.flatten →
            ReadAlike (start ++ bodyOf groups) (start' ++ bodyOf groups') := by
  have hreads := readsAs_groups hstart hsize
  refine ⟨hreads, fun start' groups' hstart' hsize' hsame => ?_⟩
  have hreads' := readsAs_groups hstart' hsize'
  obtain ⟨f, hread, hheader, hpackages⟩ := hreads.whole
  obtain ⟨f', hread', hheader', hpackages'⟩ := hreads'.whole
  refine ⟨f, f', hread, hread', hheader.trans hheader'.symm, ?_, ?_⟩
  · rw [hpackages, hpackages', hsame]
    rfl
  · rw [hreads.count, hreads'.count, hsame]

/-- A file with the packages of two blocks and with empty chunks everywhere reads as one that has both packages
in one chunk. -/
theorem reads_groups_empty :
    let header : BootstrapHeader := { file := {}, blocks := { first := 0, last := 1 } }
    let groups := [[], [lower.package], [], [upper.package], []]
    BootstrapHeader.read header.encode = .ok (header, []) ∧
      (∀ ps ∈ groups, (chunkOf ps).length ≤ maxChunkSize) ∧
      ReadsAs (header.encode ++ bodyOf groups) header [lower.package, upper.package] 5 ∧
      ReadAlike (header.encode ++ bodyOf groups) (header.encode ++ bodyOf [[lower.package, upper.package]]) := by
  intro header groups
  have hstart : BootstrapHeader.read header.encode = .ok (header, []) := by
    have hread := header.read_encode_append rfl []
    rwa [List.append_nil] at hread
  have hsize : ∀ ps ∈ groups, (chunkOf ps).length ≤ maxChunkSize := by decide +kernel
  have hsize' : ∀ ps ∈ [[lower.package, upper.package]], (chunkOf ps).length ≤ maxChunkSize := by
    decide +kernel
  obtain ⟨hreads, halike⟩ := reads_groups hstart hsize
  exact ⟨hstart, hsize, hreads, halike header.encode [[lower.package, upper.package]] hstart hsize' rfl⟩

end RingDepth.BootstrapFile
