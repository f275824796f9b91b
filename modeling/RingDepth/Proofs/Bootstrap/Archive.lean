import RingDepth.Proofs.Bootstrap.Export

/-!
# A file that one ledger grows

A ledger takes blocks, and from time to time it is exported to one path, at which nothing is at first. The
exports may want any heights, and the store may fail to supply what they need. Whatever comes, the file at
the path is a run of the chain without a gap: it reads back as the packages of heights one after the other,
each as the store had it when it was exported.
-/

namespace RingDepth

/-- A store some of whose lookups fail, each with an error of its own. -/
structure Impaired (σ : Type) where
  store : σ
  fault : Missing → Option StoreError

namespace Impaired

variable {σ : Type}

/-- The answer of a lookup, unless the lookup fails. -/
def supplied {α : Type} (s : Impaired σ) (sought : Missing) (answer : Except StoreError α) :
    Except StoreError α :=
  match s.fault sought with
  | some e => .error e
  | none => answer

/-- What a lookup found is what the store has. -/
theorem eq_ok_of_supplied {α : Type} {s : Impaired σ} {sought : Missing} {answer : Except StoreError α}
    {a : α} (h : s.supplied sought answer = .ok a) : answer = .ok a := by
  rw [supplied] at h
  split at h
  · cases h
  · exact h

variable [Store σ]

/-- Lookups of something that may be missing fail as they are told to. All else is done by the store. -/
instance : Store (Impaired σ) where
  block s hash := s.supplied (.block hash) (Store.block s.store hash)
  blockHash s height := s.supplied (.height height) (Store.blockHash s.store height)
  blockCount s := Store.blockCount s.store
  transaction s hash := s.supplied (.transaction hash) (Store.transaction s.store hash)
  hasTransaction s hash := Store.hasTransaction s.store hash
  output s id := s.supplied (.output id) (Store.output s.store id)
  outputCount s amount := Store.outputCount s.store amount
  metadata s key := s.supplied (.metadata key) (Store.metadata s.store key)
  insertBlock s height hash bytes :=
    (Store.insertBlock s.store height hash bytes).map fun store => { s with store }
  insertTransaction s hash bytes :=
    (Store.insertTransaction s.store hash bytes).map fun store => { s with store }
  insertOutput s id location :=
    (Store.insertOutput s.store id location).map fun store => { s with store }
  insertMetadata s key value := (Store.insertMetadata s.store key value).map fun store => { s with store }
  writeBlock s write := (Store.writeBlock s.store write).map fun store => { s with store }

/-- The store has what is found although some lookups fail. -/
theorem keptBy (s : Impaired σ) : Store.KeptBy s s.store where
  block h := eq_ok_of_supplied h
  blockHash h := eq_ok_of_supplied h
  transaction h := eq_ok_of_supplied h
  output h := eq_ok_of_supplied h

/-- So all chunks that may be written fit if they do without the failures. -/
theorem chunksFit (s : Impaired σ) (h : Export.ChunksFit s.store) : Export.ChunksFit s :=
  fun first packages hsupplied => h first packages (hsupplied.keptBy s.keptBy)

end Impaired

/-- A call on a ledger, or an export of it. -/
inductive ArchiveCall where
  | ledger (call : LedgerCall)
  /-- Exports the blocks from a height to another one or to the last block, while some lookups fail. -/
  | save (fault : Missing → Option StoreError) (start stop : UInt64)

/-- The call on the ledger, if it is one. -/
def ArchiveCall.ledger? : ArchiveCall → Option LedgerCall
  | ledger call => some call
  | save _ _ _ => none

/-- A ledger with the blocks that it took, and the files to which it is exported. -/
structure Archive (σ : Type) where
  history : History σ
  files : FileTree

namespace Archive

variable {σ : Type}

/-- The store of the ledger. -/
def store (a : Archive σ) : σ := a.history.ledger.store

/-- The store, as it is while some lookups fail. -/
def impaired (a : Archive σ) (fault : Missing → Option StoreError) : Impaired σ := { store := a.store, fault }

/-- Exports the ledger to a path, while some lookups fail. -/
def exportTo [Store σ] (a : Archive σ) (path : String) (fault : Missing → Option StoreError)
    (start stop : UInt64) : FileTree × Except (Halt BootstrapError) ExportSummary :=
  Export.toPath (a.impaired fault) a.files path start stop

section

variable [Store σ] [Store.Refusing σ]

/-- Takes a step. -/
def step (path : String) (a : Archive σ) : ArchiveCall → Archive σ
  | .ledger call => { a with history := a.history.step call }
  | .save fault start stop => { a with files := (a.exportTo path fault start stop).1 }

/-- Takes the steps of a run that begins with a ledger and some files, one after the other. -/
def run (l : Ledger σ) (t : FileTree) (path : String) (calls : List ArchiveCall) : Archive σ :=
  calls.foldl (step path) { history := { chain := [], ledger := l }, files := t }

variable {l : Ledger σ} {t : FileTree} {path : String} {calls : List ArchiveCall}

/-- A run with one more call. -/
theorem run_concat (l : Ledger σ) (t : FileTree) (path : String) (calls : List ArchiveCall)
    (call : ArchiveCall) : run l t path (calls ++ [call]) = (run l t path calls).step path call := by
  rw [run, run, List.foldl_append]
  rfl

/-- Exports change nothing in the ledger. -/
theorem history_run (l : Ledger σ) (t : FileTree) (path : String) (calls : List ArchiveCall) :
    (run l t path calls).history = l.run (calls.filterMap ArchiveCall.ledger?) := by
  induction calls using List.reverseRecOn with
  | nil => rfl
  | append_singleton calls call ih =>
    rw [run_concat, List.filterMap_append, Ledger.run, List.foldl_append, ← Ledger.run, ← ih]
    cases call with
    | ledger call => rfl
    | save fault start stop => rfl

/-- The chain of a run goes on from that of a shorter one. -/
theorem chain_prefix (l : Ledger σ) (t : FileTree) (path : String) (calls later : List ArchiveCall) :
    (run l t path calls).history.chain <+: (run l t path (calls ++ later)).history.chain := by
  obtain ⟨more, hmore⟩ := l.chain_run_append (calls.filterMap ArchiveCall.ledger?)
    (later.filterMap ArchiveCall.ledger?)
  rw [history_run, history_run, List.filterMap_append, hmore]
  exact List.prefix_append _ _

/-- Whether a package is what the store had at a height at some time of a run. -/
def StoredDuring (l : Ledger σ) (t : FileTree) (path : String) (calls : List ArchiveCall)
    (height : UInt64) (p : BlockPackage) : Prop :=
  ∃ before, before <+: calls ∧ p.StoredAt (run l t path before).store height

/-- What the store had in a run, it had in a longer one. -/
theorem StoredDuring.of_prefix {more : List ArchiveCall} {height : UInt64} {p : BlockPackage}
    (h : StoredDuring l t path calls height p) (hshorter : calls <+: more) :
    StoredDuring l t path more height p := by
  obtain ⟨before, hbefore, hstored⟩ := h
  exact ⟨before, hbefore.trans hshorter, hstored⟩

/-- Whether all chunks fit that may be written in a run. -/
def ChunksFitDuring (l : Ledger σ) (t : FileTree) (path : String) (calls : List ArchiveCall) : Prop :=
  ∀ before, before <+: calls → Export.ChunksFit (run l t path before).store

/-- Packages that the store had during a run stay so when an export adds packages that it has at the end. -/
theorem gapFree_of_ends {fault : Missing → Option StoreError} {start stop : UInt64}
    {before : Option ChainFile} {f' : ChainFile} {result : Except (Halt BootstrapError) ExportSummary}
    (hbefore : ∀ f ∈ before, GapFree (StoredDuring l t path calls) f.first.toNat f.packages)
    (h : Export.Ends ((run l t path calls).impaired fault) start stop before (some f') result) :
    GapFree (StoredDuring l t path calls) f'.first.toNat f'.packages := by
  obtain ⟨f, added, hopened, hsupplied, hgrown⟩ := h.exists_grown
  have hold : GapFree (StoredDuring l t path calls) f.first.toNat f.packages := by
    cases before with
    | none =>
      obtain ⟨-, hnone⟩ := hopened
      rw [hnone]
      exact .nil _ _
    | some found =>
      obtain rfl : f = found := hopened
      exact hbefore f rfl
  have hadded : GapFree (StoredDuring l t path calls) f.next added :=
    (hsupplied.keptBy (Impaired.keptBy _)).imp fun height p hp => ⟨calls, List.prefix_refl calls, hp⟩
  rw [hgrown.first, hgrown.packages]
  exact hold.append hadded

end

section

variable [Store σ] [Store.Lawful σ] [Store.Refusing σ] [Store.LawfulRefusing σ] {l : Ledger σ}
  {t : FileTree} {path : String} {calls : List ArchiveCall}

/-- The blocks of the ledger are counted after every run that begins with an empty store. -/
theorem exists_blockCount (hempty : Store.Represents l.store .empty) :
    ∃ count, Store.blockCount (run l t path calls).store = .ok count := by
  have hfaithful := l.faithful_run hempty (calls.filterMap ArchiveCall.ledger?)
  rw [← history_run l t path] at hfaithful
  obtain ⟨count, hcount, -⟩ := hfaithful.answers.blockCount
  exact ⟨count, hcount⟩

/-- However an export ends after such a run, it keeps what is at the path. -/
theorem ends_exportTo (hempty : Store.Represents l.store .empty)
    (hchunks : ChunksFitDuring l t path calls) {file : Option ChainFile}
    (hkept : ChainFile.KeptAt (run l t path calls).files path file) (fault : Missing → Option StoreError)
    (start stop : UInt64) :
    ∃ after, ChainFile.KeptAt ((run l t path calls).exportTo path fault start stop).1 path after ∧
      Export.Ends ((run l t path calls).impaired fault) start stop file after
        ((run l t path calls).exportTo path fault start stop).2 := by
  have hcount : ∃ count, Store.blockCount ((run l t path calls).impaired fault) = .ok count :=
    exists_blockCount hempty
  have hfit := Impaired.chunksFit ((run l t path calls).impaired fault)
    (hchunks calls (List.prefix_refl calls))
  exact Export.ends_toPath hkept hcount hfit start stop

/-- What the store has after some calls, it has after further ones, if the hashes of different blocks that the
ledger took differ. -/
theorem keptBy_run (hempty : Store.Represents l.store .empty) {later : List ArchiveCall}
    (hdiffer : HashesDiffer (run l t path (calls ++ later)).history.chain) :
    Store.KeptBy (run l t path calls).store (run l t path (calls ++ later)).store := by
  rw [history_run, List.filterMap_append] at hdiffer
  rw [store, store, history_run, history_run, List.filterMap_append]
  exact Ledger.keptBy_run hempty hdiffer

/-- All chunks fit if the packages of the chain do, in a ledger whose blocks were put together and have digests
that differ. -/
theorem chunksFitDuring (hempty : Store.Represents l.store .empty)
    (hbuilt : ∀ e ∈ (run l t path calls).history.chain, e.Built)
    (hdigests : DigestsDiffer (run l t path calls).history.chain)
    (hruns : RunsFit ((run l t path calls).history.chain.map Extension.package)) :
    ChunksFitDuring l t path calls := by
  rintro before ⟨later, rfl⟩
  have hshorter := chain_prefix l t path before later
  have hfaithful : (run l t path before).history.Faithful := by
    rw [history_run]
    exact l.faithful_run hempty _
  refine hfaithful.chunksFit (fun e he => hbuilt e (hshorter.subset he)) (hdigests.mono ?_) ?_
  · rintro bytes ⟨e, he, rfl⟩
    exact ⟨e, hshorter.subset he, rfl⟩
  · intro packages hpackages
    exact hruns packages (hpackages.trans (hshorter.map _).isInfix)

/-- The file at the path is kept by every run, and its packages are those of heights one after the other, as
the store had them. -/
theorem kept_run (hempty : Store.Represents l.store .empty) (hpath : BootstrapWriter.FreshPath t path)
    (hchunks : ChunksFitDuring l t path calls) :
    ∃ file, ChainFile.KeptAt (run l t path calls).files path file ∧
      ∀ f ∈ file, GapFree (StoredDuring l t path calls) f.first.toNat f.packages := by
  induction calls using List.reverseRecOn with
  | nil => exact ⟨none, hpath, fun f hf => by cases hf⟩
  | append_singleton calls call ih =>
    have hshorter : calls <+: calls ++ [call] := List.prefix_append _ _
    have hold : ChunksFitDuring l t path calls := fun before hbefore =>
      hchunks before (hbefore.trans hshorter)
    obtain ⟨file, hkept, hgapFree⟩ := ih hold
    have hwider (height : UInt64) (p : BlockPackage) (h : StoredDuring l t path calls height p) :
        StoredDuring l t path (calls ++ [call]) height p := h.of_prefix hshorter
    rw [run_concat]
    cases call with
    | ledger call => exact ⟨file, hkept, fun f hf => (hgapFree f hf).imp hwider⟩
    | save fault start stop =>
      obtain ⟨after, hafter, hends⟩ := ends_exportTo hempty hold hkept fault start stop
      refine ⟨after, hafter, fun f hf => ?_⟩
      obtain rfl : after = some f := hf
      exact (gapFree_of_ends hgapFree hends).imp hwider

end

end Archive

/-- From every empty ledger, whatever calls and exports to a fresh path there were, if all chunks fit: what is at
the path, if anything is, reads back without a fault as the packages of heights one after the other, from the
one that its header names, each as the store had it at some time, and as the store has it still if the hashes
of different blocks that the ledger took differ. Every further export, of all heights or some, whichever
lookups fail, ends in one of the ways that add to the file and change nothing in it. -/
theorem gapFree_run (checkpoints : Checkpoints) (t : FileTree) (path : String) (calls : List ArchiveCall) :
    InEveryEmptyLedger checkpoints fun l =>
      BootstrapWriter.FreshPath t path → Archive.ChunksFitDuring l t path calls →
        ∃ file, ChainFile.FoundAt (Archive.run l t path calls).files path file ∧
          (∀ f ∈ file, GapFree (Archive.StoredDuring l t path calls) f.first.toNat f.packages) ∧
          (HashesDiffer (Archive.run l t path calls).history.chain →
            ∀ f ∈ file, Export.Supplies (Archive.run l t path calls).store f.first.toNat f.packages) ∧
          ∀ fault start stop, ∃ after,
            ChainFile.FoundAt ((Archive.run l t path calls).exportTo path fault start stop).1 path after ∧
            Export.Ends ((Archive.run l t path calls).impaired fault) start stop file after
              ((Archive.run l t path calls).exportTo path fault start stop).2 := by
  apply inEveryEmptyLedger_of_represents
  intro σ _ _ _ _ l hempty _ hpath hchunks
  obtain ⟨file, hkept, hgapFree⟩ := Archive.kept_run hempty hpath hchunks
  refine ⟨file, hkept.foundAt, hgapFree, fun hdiffer f hf => ?_, fun fault start stop => ?_⟩
  · refine (hgapFree f hf).imp fun height p hp => ?_
    obtain ⟨before, ⟨later, rfl⟩, hstored⟩ := hp
    exact hstored.keptBy (Archive.keptBy_run hempty hdiffer)
  · obtain ⟨after, hafter, hends⟩ := Archive.ends_exportTo hempty hchunks hkept fault start stop
    exact ⟨after, hafter.foundAt, hends⟩

/-- A ledger that is exported while it has no block, then one, and then two. The second block is not added by
an export to which its transaction is not supplied. -/
def growingCalls : List ArchiveCall :=
  [.save (fun _ => none) 0 0, .ledger (.append lower), .save (fun _ => none) 0 0,
    .ledger (.append upper),
    .save (fun sought => if sought = .transaction spending.hash then some (.notFound sought) else none) 0 0,
    .save (fun _ => none) 0 0]

/-- The run of these calls that begins with an empty store in memory and no files. -/
def growingArchive : Archive Memory := Archive.run { store := {} } {} "exports/chain.dat" growingCalls

/-- Its ledger takes two blocks. -/
theorem history_growingArchive : growingArchive.history = twoBlocksHistory := Archive.history_run _ _ _ _

/-- The file of this run carries the packages of both blocks, although one export failed in between. -/
theorem gapFree_growingCalls :
    BootstrapWriter.FreshPath {} "exports/chain.dat" ∧
    Archive.ChunksFitDuring ({ store := {} } : Ledger Memory) {} "exports/chain.dat" growingCalls ∧
    HashesDiffer growingArchive.history.chain ∧
    ∃ f : ChainFile, f.At growingArchive.files "exports/chain.dat" ∧ f.first = 0 ∧
      f.packages.length = 2 ∧ Export.Supplies growingArchive.store 0 f.packages := by
  have hpath : BootstrapWriter.FreshPath {} "exports/chain.dat" :=
    .of_isOk (by decide +kernel) (by decide +kernel) (by decide +kernel)
  have hchain : growingArchive.history.chain = [lower, upper] := by
    rw [history_growingArchive]
    decide +kernel
  have hbuilt (e : Extension) (he : e ∈ growingArchive.history.chain) : e.Built := by
    rw [hchain] at he
    obtain rfl | hupper := List.mem_cons.mp he
    · exact built_twoBlocks (by simp [twoBlocks])
    · rw [List.mem_singleton.mp hupper]
      exact built_twoBlocks (by simp [twoBlocks])
  have hdigests : DigestsDiffer growingArchive.history.chain := hchain ▸ digestsDiffer_twoBlocks
  have hruns : RunsFit (growingArchive.history.chain.map Extension.package) := by
    rw [hchain]
    exact .of_length (by decide +kernel)
  have hdiffer := hdigests.hashesDiffer hbuilt
  have hchunks : Archive.ChunksFitDuring ({ store := {} } : Ledger Memory) {} "exports/chain.dat"
      growingCalls := Archive.chunksFitDuring (Memory.represents_empty ∅ false) hbuilt hdigests hruns
  have hcounted : BootstrapFile.countBlocksAt growingArchive.files "exports/chain.dat" = .ok (2, 0) := by
    decide +kernel
  have hrun := (gapFree_run {} {} "exports/chain.dat" growingCalls).memory ∅ false hpath hchunks
  rw [← growingArchive] at hrun
  obtain ⟨file, hfound, -, hsupplied, -⟩ := hrun
  obtain ⟨f, rfl, hat, hfirst, hlength⟩ := hfound.of_countBlocksAt hcounted
  have hf := hsupplied hdiffer f rfl
  rw [hfirst] at hf
  exact ⟨hpath, hchunks, hdiffer, f, hat, hfirst, hlength, hf⟩

end RingDepth
