import RingDepth.Proofs.Bootstrap.Import
import RingDepth.Proofs.Store.Agree

/-!
# Export and import

A ledger that is exported as a whole and imported into an empty one is reproduced there: all that the
lookups of the one find is found in the other, and so every trace comes to the same end in both. Both
stores answer from what the chain of the first ledger adds to an empty store, whatever the kinds of the two
stores are.
-/

namespace RingDepth

section

variable {σ τ : Type} [Store σ] [Store τ]

/-- Whether the import of the file at a path into a store takes as many blocks as another store has and
skips none, and leaves the same blocks, transactions and outputs, and so the same traces. -/
def Import.Reproduces (t : FileTree) (path : String) (s : σ) (target : τ) : Prop :=
  ∃ copy blocks, ofPath { store := target } t path =
      ({ store := copy }, .ok { imported := UInt64.toNat blocks, skipped := 0 }) ∧
    Store.blockCount s = .ok blocks ∧
    Store.Agree s copy ∧
    (∀ height, Store.blockAt copy height = Store.blockAt s height) ∧
    ∀ c start, trace (Reader.ofStore copy) c start = trace (Reader.ofStore s) c start

end

/-- Whether all empty stores have a property that take some blocks: those in memory, and ledger directories
that may be written, reached through a memory map that has room for the blocks or not. -/
structure InEveryEmptyStore (writes : List BlockWrite) (P : ∀ {τ : Type} [Store τ], τ → Prop) :
    Prop where
  memory : ∀ metadata, P ({ metadata } : Memory)
  environment : ∀ metadata, P ({ tables := { metadata } } : Environment)
  mapped : ∀ metadata pages mapSize,
    let m : MappedEnvironment := { environment := { tables := { metadata } }, pages, mapSize }
    m.hasRoom writes = true → P m

/-- What stores have that hold nothing and take the blocks, holds of all empty stores that do. -/
theorem inEveryEmptyStore_of_open {writes : List BlockWrite} {P : ∀ {τ : Type} [Store τ], τ → Prop}
    (hopen : ∀ {τ : Type} [Store τ] [Store.Lawful τ] [Store.Taking τ] (s : τ),
      Store.Represents s .empty → Store.Taking.Open s writes → P s) : InEveryEmptyStore writes P where
  memory metadata := hopen _ (Memory.represents_empty metadata false) rfl
  environment metadata := hopen (_ : Environment) (Tables.represents_empty metadata) rfl
  mapped metadata _ _ hroom :=
    hopen (_ : MappedEnvironment) (Tables.represents_empty metadata) ⟨rfl, hroom⟩

/-- An export of a faithful history to a fresh path leaves a file there whose import reproduces the ledger
in every empty store that takes its blocks. -/
theorem History.Faithful.reproduced {σ : Type} [Store σ] [Store.Lawful σ] {h : History σ}
    (hf : h.Faithful) (hbuilt : ∀ e ∈ h.chain, e.Built) (hdigests : DigestsDiffer h.chain)
    (hne : h.chain ≠ []) (hruns : RunsFit (h.chain.map Extension.package)) {t : FileTree} {path : String}
    (hpath : BootstrapWriter.FreshPath t path) :
    ∃ t' summary, Export.toPath h.ledger.store t path 0 0 = (t', .ok summary) ∧
      InEveryEmptyStore (h.chain.map Extension.toWrite) (Import.Reproduces t' path h.ledger.store) := by
  obtain ⟨t', last, bytes, hexport, hfile, hcarries⟩ :=
    hf.export_toPath hbuilt hdigests hne hruns hpath
  obtain ⟨blocks, hblocks, hlength⟩ := hf.answers.blockCount
  rw [Holdings.hashes_ofChain, List.length_map] at hlength
  refine ⟨t', _, hexport, inEveryEmptyStore_of_open fun target hempty hopen => ?_⟩
  obtain ⟨copy, himport, hcopy⟩ := Import.ofPath_packages hfile hcarries hf.valid hbuilt
    hf.answers.countable hempty hopen
  have hagree := hf.answers.agree (Store.answers hcopy)
  refine ⟨copy, blocks, hlength ▸ himport, hblocks, hagree, hagree.blockAt, fun c start => ?_⟩
  rw [hagree.ofStore_eq]

/-- After every run from an empty store that took some block, the ledger is reproduced in every empty store
by an export to a path at which nothing is and an import from there, if the blocks and transactions that
were appended were put together, the digests of different blocks that the run took differ, and all runs of
packages that go into one chunk may be read. -/
theorem reproduced_run (checkpoints : Checkpoints) (calls : List LedgerCall)
    (hbuilt : ∀ e, .append e ∈ calls → e.Built) :
    InEveryRun checkpoints calls fun h =>
      DigestsDiffer h.chain → h.chain ≠ [] → RunsFit (h.chain.map Extension.package) →
        ∀ (t : FileTree) (path : String), BootstrapWriter.FreshPath t path →
          ∃ t' summary, Export.toPath h.ledger.store t path 0 0 = (t', .ok summary) ∧
            InEveryEmptyStore (h.chain.map Extension.toWrite)
              (Import.Reproduces t' path h.ledger.store) := by
  apply inEveryRun_of_faithful
  intro σ _ _ h hf happended _ hdigests hne hruns t path hpath
  exact hf.reproduced (fun e he => hbuilt e (happended e he)) hdigests hne hruns hpath

/-- The ledger of two blocks is reproduced in empty stores of all three kinds, by way of a file where there
was none. -/
theorem reproduced_twoBlocks :
    (∀ e, .append e ∈ twoBlocks → e.Built) ∧ DigestsDiffer [lower, upper] ∧
    RunsFit ([lower, upper].map Extension.package) ∧ BootstrapWriter.FreshPath {} "chain.dat" ∧
    ∃ source t' summary,
      (Ledger.run { store := ({} : Memory), checkpoints := upperPinned } twoBlocks).ledger.store = source ∧
      Export.toPath source {} "chain.dat" 0 0 = (t', .ok summary) ∧
      Import.Reproduces t' "chain.dat" source ({} : Memory) ∧
      Import.Reproduces t' "chain.dat" source ({} : Environment) ∧
      Import.Reproduces t' "chain.dat" source
        ({ environment := {}, pages := {}, mapSize := 1048576 } : MappedEnvironment) := by
  have hruns : RunsFit ([lower, upper].map Extension.package) := .of_length (by decide +kernel)
  have hroom : MappedEnvironment.hasRoom { environment := {}, pages := {}, mapSize := 1048576 }
      ([lower, upper].map Extension.toWrite) = true := by decide +kernel
  have hrun := (reproduced_run upperPinned twoBlocks fun e => built_twoBlocks).memory ∅ false
  rw [chain_twoBlocks] at hrun
  obtain ⟨t', summary, hexport, hstores⟩ :=
    hrun digestsDiffer_twoBlocks (List.cons_ne_nil _ _) hruns {} "chain.dat" BootstrapWriter.FreshPath.empty
  exact ⟨fun e => built_twoBlocks, digestsDiffer_twoBlocks, hruns, BootstrapWriter.FreshPath.empty,
    _, t', summary, rfl, hexport, hstores.memory ∅, hstores.environment ∅, hstores.mapped ∅ {} 1048576 hroom⟩

end RingDepth
