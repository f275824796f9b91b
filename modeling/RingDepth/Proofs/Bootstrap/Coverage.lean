import RingDepth.Proofs.Bootstrap.Growth
import RingDepth.Proofs.Bootstrap.Overlap
import RingDepth.Proofs.Bootstrap.Resuming
import RingDepth.Proofs.Bootstrap.Session

/-!
# The heights that an exported file covers

An export goes on behind the last package of the file that is there, whatever the packages of the file are. So
an export that ends well has added the packages of the blocks of its store from there up to the last height
that it wants, and the file has these. For the heights below it the file has what it had: the packages of the
store if they were there, but maybe those of other blocks, or none if the file begins higher.
-/

namespace RingDepth

namespace BootstrapWriter

variable {before : Option Bytes} {first last : UInt64} {w : BootstrapWriter} {f : BootstrapFile}

/-- A writer goes on at the height behind the packages of a whole file, as far as they are counted. -/
theorem nextHeight_of_start (hstart : start before first last = .ok w)
    (hread : BootstrapFile.read (openedBytes before first last) = .ok f) (hwhole : f.Whole) :
    w.nextHeight.toNat = f.header.blocks.first.toNat + (UInt64.ofNat f.packages.items.length).toNat := by
  cases before with
  | none =>
    obtain rfl := Except.ok.inj hstart
    have hstarted := read_started first last []
    rw [List.append_nil, hread] at hstarted
    obtain rfl := Except.ok.inj hstarted
    rw [(BootstrapFile.composed_started first last).packages_eq]
    rfl
  | some bytes =>
    obtain ⟨⟨count, height⟩, hcount, hnext⟩ := bind_eq_ok_iff.mp hstart
    have hcounted : BootstrapFile.countBlocks bytes = _ := hwhole.countBlocks hread
    rw [monadLift_eq_ok_iff, hcounted] at hcount
    obtain ⟨rfl, rfl⟩ := Prod.mk.inj (Except.ok.inj hcount)
    obtain ⟨next, hadd, heq⟩ := bind_eq_ok_iff.mp hnext
    obtain rfl := Except.ok.inj heq
    exact addCounter_eq_ok_iff.mp hadd

end BootstrapWriter

namespace Export

variable {σ : Type} [Store σ] {s : σ} {start stop last : UInt64} {packages : List BlockPackage}

/-- Whether the package of the block that a store has at a height is among some packages. -/
def Contains (s : σ) (packages : List BlockPackage) (height : UInt64) : Prop :=
  ∃ p ∈ packages, packageAt s height = .ok p

/-- Packages of heights one after the other contain those of all these heights. -/
theorem Supplies.contains {first : ℕ} (h : Supplies s first packages) {height : UInt64}
    (hfirst : first ≤ height.toNat) (hlast : height.toNat < first + packages.length) :
    Contains s packages height := by
  have hi : height.toNat - first < packages.length := by omega
  obtain ⟨found, hfound, hstored⟩ := h _ _ (List.getElem?_eq_getElem hi)
  obtain rfl : found = height := UInt64.toNat_inj.mp (by omega)
  exact ⟨_, List.getElem_mem hi, packageAt_eq_ok_iff.mpr hstored⟩

/-- The last height is found exactly if it is the one that is wanted. -/
theorem lastHeight_eq_ok_iff : lastHeight s stop = .ok last ↔ WantsUpTo s stop last := by
  constructor
  · intro h
    obtain ⟨count, hcount, hbody⟩ := bind_eq_ok_iff.mp h
    rw [mapError_eq_ok_iff] at hcount
    by_cases hzero : count = 0
    · rw [if_pos hzero] at hbody
      cases hbody
    · rw [if_neg hzero] at hbody
      exact ⟨count, hcount, hzero, (Except.ok.inj hbody).symm⟩
  · rintro ⟨count, hcount, hzero, rfl⟩
    obtain ⟨found, hfound, count', hcount', -, rfl⟩ := lastHeight_of_ne_zero hcount hzero stop
    obtain rfl : count' = count := Except.ok.inj (hcount'.symm.trans hcount)
    exact hfound

/-- Blocks that were written without a failure are packages that the store supplies, added one after the
other. -/
theorem appendAll_of_writeBlocks {blocks : ℕ} {height : UInt64} {w w' : BootstrapWriter}
    (h : writeBlocks s blocks height w = (w', .ok ())) (hroom : height.toNat + blocks < UInt64.size) :
    ∃ added, Supplies s height.toNat added ∧ added.length = blocks ∧ w.appendAll added = (w', .ok ()) := by
  induction blocks generalizing height w with
  | zero => exact ⟨[], .nil _ _, rfl, h⟩
  | succ blocks ih =>
    rw [writeBlocks] at h
    split at h
    · cases h
    · rename_i p hp
      split at h
      · cases h
      · rename_i next hnext
        have hheight : (height + 1).toNat = height.toNat + 1 := Ledger.toNat_above (by omega)
        obtain ⟨added, hsupplied, hlength, happend⟩ := ih h (by omega)
        rw [hheight] at hsupplied
        refine ⟨p :: added, .cons (packageAt_eq_ok_iff.mp hp) hsupplied, congrArg (· + 1) hlength, ?_⟩
        rw [BootstrapWriter.appendAll, hnext]
        exact happend

/-- What an export adds to a file that ends well: the packages of its store from the end of the file, which is
not below the wanted start, up to the last height that is wanted. There are none if the file ends above. -/
structure Adds (s : σ) (start stop : UInt64) (f : BootstrapFile) (summary : ExportSummary)
    (added : List BlockPackage) : Prop where
  last : WantsUpTo s stop summary.last
  first : summary.first.toNat = f.header.blocks.first.toNat + (UInt64.ofNat f.packages.items.length).toNat
  start : start ≤ summary.first
  supplied : Supplies s summary.first.toNat added
  length : added.length = summary.last.toNat + 1 - summary.first.toNat
  written : summary.written = added.length

/-- A file to which an export added packages contains those of all heights up to the last one, if it contained
those of the heights at which the export did not begin. -/
theorem Adds.contains {f f' : BootstrapFile} {summary : ExportSummary} {added : List BlockPackage}
    (h : Adds s start stop f summary added) (hitems : f'.packages.items = f.packages.items ++ added)
    {height : UInt64} (hlast : height ≤ summary.last)
    (hbelow : height < summary.first → Contains s f.packages.items height) :
    Contains s f'.packages.items height := by
  rw [hitems]
  by_cases hfirst : height < summary.first
  · obtain ⟨p, hp, hpackage⟩ := hbelow hfirst
    exact ⟨p, List.mem_append_left _ hp, hpackage⟩
  · have hlength := h.length
    rw [UInt64.lt_iff_toNat_lt] at hfirst
    rw [UInt64.le_iff_toNat_le] at hlast
    obtain ⟨p, hp, hpackage⟩ := h.supplied.contains (Nat.not_lt.mp hfirst) (by omega)
    exact ⟨p, List.mem_append_right _ hp, hpackage⟩

/-- An export of a writer that was opened ends well with these bytes and this summary, if the store supplies the
packages that it adds. -/
theorem adds_of_run {before : Option Bytes} {w : BootstrapWriter} {f : BootstrapFile} {bytes : Bytes}
    {summary : ExportSummary} (hopened : BootstrapWriter.start before start last = .ok w)
    (hread : BootstrapFile.read (BootstrapWriter.openedBytes before start last) = .ok f) (hwhole : f.Whole)
    (hlast : WantsUpTo s stop last) (h : run s w start last = (bytes, .ok summary)) :
    summary.last = last ∧ ∃ added, Adds s start stop f summary added ∧
      bytes = BootstrapWriter.openedBytes before start last ++ bodyOf (hundreds added) := by
  have hroom := hlast.lt
  have hnext_lt : w.nextHeight.toNat < UInt64.size := w.nextHeight.toNat_lt
  rw [run] at h
  split at h
  · cases h
  · rename_i hbelow
    split at h
    · cases h
    · rename_i w' hwrite
      obtain ⟨rfl, hsummary⟩ := Prod.mk.inj h
      obtain rfl := Except.ok.inj hsummary
      obtain ⟨added, hsupplied, hlength, happend⟩ := appendAll_of_writeBlocks hwrite (by omega)
      obtain ⟨hfile, -, hwritten⟩ := BootstrapWriter.file_of_start hopened happend
      exact ⟨rfl, added, ⟨hlast, BootstrapWriter.nextHeight_of_start hopened hread hwhole,
        UInt64.not_lt.mp hbelow, hsupplied, hlength, hwritten⟩, hfile⟩

/-- An export that adds packages to a file that was just started begins at the wanted start. -/
theorem Adds.first_of_started {before : Option Bytes} {f : BootstrapFile} {summary : ExportSummary}
    {added : List BlockPackage} (h : Adds s start stop f summary added) (hnone : before = none)
    (hread : BootstrapFile.read (BootstrapWriter.openedBytes before start summary.last) = .ok f) :
    summary.first = start := by
  subst hnone
  have hstarted := BootstrapWriter.read_started start summary.last []
  rw [List.append_nil, hread] at hstarted
  obtain rfl := Except.ok.inj hstarted
  have hfirst := h.first
  rw [(BootstrapFile.composed_started start summary.last).packages_eq] at hfirst
  exact UInt64.toNat_inj.mp hfirst

/-- An export to a path at which nothing is, or a whole file, that ends well has added the packages of the
store's blocks from the end of the file up to the last height that is wanted. If their chunks may be read, then
the file reads as what it held and then these. So for every height from the wanted start to the last one it
contains the package of the store's block, if the file was started, or if this height is not below the former
end of the file or the file contained it before. -/
theorem toPath_covers {t t' : FileTree} {path : String} {before : Option Bytes} {summary : ExportSummary}
    (hleft : BootstrapWriter.LeftAt t path before)
    (hwhole : ∀ bytes, before = some bytes → ∃ f, BootstrapFile.read bytes = .ok f ∧ f.Whole)
    (hexport : toPath s t path start stop = (t', .ok summary)) :
    ∃ f added, BootstrapFile.read (BootstrapWriter.openedBytes before start summary.last) = .ok f ∧
      Adds s start stop f summary added ∧
      (HundredsFit added → ∃ f', BootstrapFile.readAt t' path = .ok f' ∧ f.LengthenedBy f' added ∧
        f'.packages.items = f.packages.items ++ added ∧
        ∀ height, start ≤ height → height ≤ summary.last →
          (before ≠ none → height < summary.first → Contains s f.packages.items height) →
          Contains s f'.packages.items height) := by
  rw [toPath] at hexport
  split at hexport
  · cases hexport
  · rename_i last hlast
    have hwants := lastHeight_eq_ok_iff.mp hlast
    obtain ⟨t₁, hopen, hkeeps⟩ := hleft.openAt start last
    rw [hopen] at hexport
    split at hexport
    · cases hexport
    · rename_i w hw
      obtain ⟨rfl, hstart⟩ := Prod.mk.inj hw
      rcases hrun : run s w start last with ⟨bytes, result⟩
      rw [hrun] at hexport
      obtain ⟨rfl, rfl⟩ := Prod.mk.inj hexport
      obtain ⟨f, hread, hf⟩ := BootstrapWriter.exists_whole_openedBytes hwhole start last
      obtain ⟨rfl, added, hadds, rfl⟩ := adds_of_run hstart hread hf hwants hrun
      refine ⟨f, added, hread, hadds, fun hfit => ?_⟩
      have hlonger := hf.lengthenedBy hfit
      have hitems := hlonger.items hf
      refine ⟨_, ?_, hlonger, hitems, fun height hge hle hheld => hadds.contains hitems hle fun hlt => ?_⟩
      · rw [(hkeeps.saveBytes _).readAt]
        exact BootstrapFile.read_append hread _
      · refine hheld (fun hnone => ?_) hlt
        rw [hadds.first_of_started hnone hread] at hlt
        exact absurd hge (UInt64.not_le.mpr hlt)

/-- The file with the package of a first block is whole. -/
theorem whole_lowerFile : ∃ f, BootstrapFile.read BootstrapWriter.lowerFile = .ok f ∧ f.Whole ∧
    f.packages.items = [lower.package] := by
  have hsize : ∀ ps ∈ [[lower.package]], (chunkOf ps).length ≤ maxChunkSize := by decide +kernel
  have hcomposed := (BootstrapFile.composed_started 0 0).extend hsize
  have hitems := congrArg Contents.items hcomposed.packages_eq
  exact ⟨_, BootstrapWriter.read_started 0 0 _, hcomposed.whole, hitems⟩

/-- The package of the second of two blocks is added to this file, which then covers both. -/
theorem toPath_covers_twoBlocks :
    BootstrapWriter.LeftAt (BootstrapWriter.treeWith BootstrapWriter.lowerFile) "chain.dat"
      (some BootstrapWriter.lowerFile) ∧
    ∃ source t' f', (Ledger.run { store := ({} : Memory) } twoBlocks).ledger.store = source ∧
      toPath source (BootstrapWriter.treeWith BootstrapWriter.lowerFile) "chain.dat" 0 0 =
        (t', .ok { first := 1, last := 1, written := 1 }) ∧
      BootstrapFile.readAt t' "chain.dat" = .ok f' ∧
      f'.packages.items = [lower.package, upper.package] ∧
      Contains source f'.packages.items 0 ∧ Contains source f'.packages.items 1 := by
  obtain ⟨source, hsource⟩ : ∃ source, (Ledger.run { store := ({} : Memory) } twoBlocks).ledger.store = source :=
    ⟨_, rfl⟩
  have hlower : packageAt source 0 = .ok lower.package := by
    rw [← hsource]
    decide +kernel
  have hupper : packageAt source 1 = .ok upper.package := by
    rw [← hsource]
    decide +kernel
  have hresult : (toPath source (BootstrapWriter.treeWith BootstrapWriter.lowerFile) "chain.dat" 0 0).2 =
      .ok { first := 1, last := 1, written := 1 } := by
    rw [← hsource]
    decide +kernel
  have hleft : BootstrapWriter.LeftAt (BootstrapWriter.treeWith BootstrapWriter.lowerFile) "chain.dat"
      (some BootstrapWriter.lowerFile) := BootstrapWriter.keepsAt_treeWith _
  obtain ⟨f, hread, hwhole, hitems⟩ := whole_lowerFile
  have hbefore (bytes : Bytes) (hbytes : some BootstrapWriter.lowerFile = some bytes) :
      ∃ f, BootstrapFile.read bytes = .ok f ∧ f.Whole := by
    obtain rfl := Option.some.inj hbytes
    exact ⟨f, hread, hwhole⟩
  obtain ⟨g, added, hg, hadds, hcovers⟩ := toPath_covers hleft hbefore (Prod.ext rfl hresult)
  obtain rfl : f = g := Except.ok.inj (hread.symm.trans hg)
  obtain ⟨p, rfl⟩ := List.length_eq_one_iff.mp hadds.length
  obtain ⟨height, hheight, hstored⟩ := hadds.supplied 0 p rfl
  obtain rfl : height = 1 := UInt64.toNat_inj.mp hheight
  obtain rfl := Except.ok.inj (hupper.symm.trans (packageAt_eq_ok_iff.mpr hstored))
  obtain ⟨f', hf', -, hitems', hcontains⟩ := hcovers (RunsFit.of_length (by decide +kernel)).hundredsFit
  have hzero := hcontains 0 (by decide) (by decide) fun _ _ =>
    ⟨lower.package, hitems ▸ List.mem_cons_self, hlower⟩
  have hone := hcontains 1 (by decide) (by decide) fun _ hlt => absurd hlt (by decide)
  rw [hitems] at hitems'
  exact ⟨hleft, source, _, f', hsource, Prod.ext rfl hresult, hf', hitems', hzero, hone⟩

/-- A file with the package of another first block than that of the ledger ends above it. So an export of the
ledger ends well, and adds nothing: the file does not contain the package of the first block. -/
theorem not_covers_rival :
    BootstrapWriter.LeftAt rivalFile "chain.dat" (some ((BootstrapWriter.create 0 0).file ++ bodyOf [[rival]])) ∧
    (BootstrapFile.readAt rivalFile "chain.dat").map (fun f => (f.packages.items, f.packages.failure)) =
      .ok ([rival], none) ∧
    (toPath lowerLedger.store rivalFile "chain.dat" 0 0).2 = .ok { first := 1, last := 0, written := 0 } ∧
    (BootstrapFile.readAt (toPath lowerLedger.store rivalFile "chain.dat" 0 0).1 "chain.dat").map
      (fun f => f.packages.items) = .ok [rival] ∧
    packageAt lowerLedger.store 0 = .ok lower.package ∧ lower.package ∉ [rival] :=
  ⟨BootstrapWriter.keepsAt_treeWith _, by decide +kernel, by decide +kernel, by decide +kernel,
    by decide +kernel, by decide +kernel⟩

end Export

end RingDepth
