import Mathlib.Data.List.Chain
import RingDepth.Proofs.Bootstrap.Replay

/-!
# What a ledger holds of an imported file

A package that is below the height of the ledger is skipped, whatever block it has. So an import may end well
although the ledger holds other blocks than the file. What protects the packages of a file is the parent of a
block that is appended: it is the block that the ledger holds one height below. If the file has a package for
this block, then the ledger holds this package, and so on down to the first one of the file, as far as the
packages follow each other.
-/

namespace RingDepth

section

variable {σ : Type} [Store σ] [Store.Lawful σ] {l : Ledger σ} {chain : List Extension}

/-- The hashes of the blocks that a ledger took are found by height. -/
theorem Ledger.Took.blockHash_eq_ok_iff (h : l.Took chain) {height : UInt64} {hash : BlockHash} :
    Store.blockHash l.store height = .ok hash ↔
      ∃ e, chain[height.toNat]? = some e ∧ e.block.hash = hash := by
  rw [(Store.answers h.represents).blockHash, Store.answer_eq_ok_iff, Holdings.hashes_ofChain,
    List.getElem?_map, Option.map_eq_some_iff]

/-- A block of a valid chain that is not the first names the block before it as its parent. -/
theorem ValidChain.prevHash {checkpoints : Checkpoints} (h : ValidChain checkpoints chain) {i : ℕ}
    {e : Extension} (he : chain[i + 1]? = some e) :
    ∃ parent, chain[i]? = some parent ∧ e.block.prevHash = parent.block.hash := by
  obtain ⟨hlt, -⟩ := List.getElem?_eq_some_iff.mp he
  have hparent : chain[i]? = some chain[i] := List.getElem?_eq_getElem (by omega)
  refine ⟨chain[i], hparent, ?_⟩
  rw [(h.follows he).parent, lastHash, List.getLast?_take, if_neg (Nat.succ_ne_zero i), Nat.add_sub_cancel,
    hparent]
  rfl

end

namespace Import

/-- Whether the block of a package is the one that a store holds at its height. -/
def Held {σ : Type} [Store σ] (s : σ) (p : BlockPackage) : Prop :=
  ∃ b, blockOf p = .ok b ∧ Store.blockHash s b.height = .ok b.hash

/-- Whether the block of a package has that of another one as parent, one height below. -/
def Continues (p q : BlockPackage) : Prop :=
  ∃ b c, blockOf p = .ok b ∧ blockOf q = .ok c ∧ c.height.toNat = b.height.toNat + 1 ∧ c.prevHash = b.hash

/-- Whether a block is in a chain or in a package. -/
def Among (chain : List Extension) (packages : List BlockPackage) (b : Block) : Prop :=
  b ∈ chain.map Extension.block ∨ ∃ p ∈ packages, blockOf p = .ok b

/-- Whether blocks of a chain and of packages that have one hash have one parent. -/
def ParentsAgree (chain : List Extension) (packages : List BlockPackage) : Prop :=
  ∀ b c, Among chain packages b → Among chain packages c → b.hash = c.hash → b.prevHash = c.prevHash

/-- Which packages a store holds that were imported by a ledger which took a chain before. A package is held
if it is not below the height that there was before and none before it has its height, or if one that
continues it is held. All are held if each one continues the one before it and one was imported. -/
structure Covers {σ : Type} [Store σ] (s : σ) (chain : List Extension) (packages : List BlockPackage)
    (imported : ℕ) : Prop where
  reached : ∀ p ∈ packages, ∃ b hash, blockOf p = .ok b ∧ Store.blockHash s b.height = .ok hash
  first : ∀ front p back b, packages = front ++ p :: back → blockOf p = .ok b →
    chain.length ≤ b.height.toNat → (∀ q ∈ front, ∀ c, blockOf q = .ok c → c.height ≠ b.height) → Held s p
  parent : ParentsAgree chain packages → ∀ p ∈ packages, ∀ q ∈ packages, Continues p q → Held s q → Held s p
  whole : ParentsAgree chain packages → packages.IsChain Continues → imported ≠ 0 →
    ∀ p ∈ packages, Held s p

/-- The blocks that are appended are those of packages. -/
theorem Replays.exists_package {σ : Type} [Store σ] {l l' : Ledger σ} {packages : List BlockPackage}
    {es : List Extension} (h : Replays l packages es l') {e : Extension} (he : e ∈ es) :
    ∃ p ∈ packages, blockOf p = .ok e.block := by
  induction h with
  | nil => cases he
  | skip _ _ ih =>
    obtain ⟨p, hp, hblock⟩ := ih he
    exact ⟨p, List.mem_cons_of_mem _ hp, hblock⟩
  | append first _ ih =>
    obtain rfl | hrest := List.mem_cons.mp he
    · exact ⟨_, List.mem_cons_self, first.block⟩
    · obtain ⟨p, hp, hblock⟩ := ih hrest
      exact ⟨p, List.mem_cons_of_mem _ hp, hblock⟩

/-- Packages each of which continues the one before it come in the order of their heights. -/
theorem pairwise_height {packages : List BlockPackage} (h : packages.IsChain Continues) :
    packages.Pairwise fun p q =>
      ∃ b c, blockOf p = .ok b ∧ blockOf q = .ok c ∧ b.height.toNat < c.height.toNat := by
  let Below (p q : BlockPackage) : Prop :=
    ∃ b c, blockOf p = .ok b ∧ blockOf q = .ok c ∧ b.height.toNat < c.height.toNat
  have htrans : Trans Below Below Below := by
    refine ⟨fun hab hbc => ?_⟩
    obtain ⟨a, b, ha, hb, hlt⟩ := hab
    obtain ⟨b', c, hb', hc, hlt'⟩ := hbc
    obtain rfl := Except.ok.inj (hb.symm.trans hb')
    exact ⟨a, c, ha, hc, Nat.lt_trans hlt hlt'⟩
  refine List.isChain_iff_pairwise.mp (h.imp fun p q hcontinues => ?_)
  obtain ⟨b, c, hb, hc, hheight, -⟩ := hcontinues
  exact ⟨b, c, hb, hc, by omega⟩

section

variable {σ : Type} [Store σ] [Store.Lawful σ] {l l' : Ledger σ} {chain es : List Extension}
  {packages : List BlockPackage}

/-- A package that is not below the height before is appended, unless one before it has its height. -/
theorem Replays.held_first {front back : List BlockPackage} {p : BlockPackage}
    (h : Replays l (front ++ p :: back) es l') (htook : l.Took chain) {b : Block}
    (hblock : blockOf p = .ok b) (hheight : chain.length ≤ b.height.toNat)
    (hfirst : ∀ q ∈ front, ∀ c, blockOf q = .ok c → c.height ≠ b.height) : Held l'.store p := by
  induction front generalizing l chain es with
  | nil =>
    have htook' := (h.took htook).1
    cases h with
    | skip first _ =>
      obtain ⟨c, height, hc, hcurrent, hlt⟩ := first
      obtain rfl := Except.ok.inj (hblock.symm.trans hc)
      rw [UInt64.lt_iff_toNat_lt, htook.height_eq_ok_iff.mp hcurrent] at hlt
      exact absurd hlt (Nat.not_lt.mpr hheight)
    | @append _ _ _ _ _ e es first _ =>
      obtain rfl := Except.ok.inj (hblock.symm.trans first.block)
      obtain ⟨hfollows, -⟩ := htook.append first.append
      refine ⟨e.block, hblock, htook'.blockHash_eq_ok_iff.mpr ⟨e, ?_, rfl⟩⟩
      rw [hfollows.height]
      simp
  | cons q front ih =>
    obtain ⟨hq, hfront⟩ := List.forall_mem_cons.mp hfirst
    cases h with
    | skip _ others => exact ih others htook hheight hfront
    | append first others =>
      obtain ⟨hfollows, hnext⟩ := htook.append first.append
      refine ih others hnext ?_ hfront
      have hother : b.height.toNat ≠ chain.length := fun hsame =>
        hq _ first.block (UInt64.toNat_inj.mp (hfollows.height.trans hsame.symm))
      rw [List.length_append, List.length_singleton]
      omega

/-- A package is held if one that continues it is: the ledger took the block of this one, or another one with
its hash, when it held the parent. -/
theorem Replays.held_parent (h : Replays l packages es l') (htook : l.Took chain)
    (hagree : ParentsAgree chain packages) {p q : BlockPackage} (hq : q ∈ packages)
    (hcontinues : Continues p q) (hheld : Held l'.store q) : Held l'.store p := by
  obtain ⟨htook', -⟩ := h.took htook
  obtain ⟨b, c, hb, hc, hheight, hparent⟩ := hcontinues
  obtain ⟨c', hc', hhash⟩ := hheld
  obtain rfl := Except.ok.inj (hc.symm.trans hc')
  obtain ⟨e, he, hsame⟩ := htook'.blockHash_eq_ok_iff.mp hhash
  have hamong : Among chain packages e.block := by
    obtain hold | hnew := List.mem_append.mp (List.mem_of_getElem? he)
    · exact .inl (List.mem_map_of_mem hold)
    · exact .inr (h.exists_package hnew)
  rw [hheight] at he
  obtain ⟨parent, hplaced, hprev⟩ := htook'.valid.prevHash he
  refine ⟨b, hb, htook'.blockHash_eq_ok_iff.mpr ⟨parent, hplaced, ?_⟩⟩
  rw [← hprev, hagree e.block c hamong (.inr ⟨q, hq, hc⟩) hsame, hparent]

/-- If packages continue each other and one of them was appended, then the last one is held, since it is above
all others. -/
theorem Replays.held_last {front : List BlockPackage} {last : BlockPackage}
    (h : Replays l (front ++ [last]) es l') (htook : l.Took chain)
    (hchain : (front ++ [last]).IsChain Continues) (hsome : es.length ≠ 0) : Held l'.store last := by
  obtain ⟨htook', hbelow⟩ := h.took htook
  obtain ⟨b, hblock, -⟩ := hbelow last (by simp)
  have habove (q : BlockPackage) (hq : q ∈ front) (c : Block) (hc : blockOf q = .ok c) :
      c.height.toNat < b.height.toNat := by
    obtain ⟨c', b', hc', hb', hlt⟩ :=
      (List.pairwise_append.mp (pairwise_height hchain)).2.2 q hq last List.mem_cons_self
    obtain rfl := Except.ok.inj (hc.symm.trans hc')
    obtain rfl := Except.ok.inj (hblock.symm.trans hb')
    exact hlt
  -- The first block that is appended has the height before as its own.
  have hfirst : es[0]? = some es[0] := List.getElem?_eq_getElem (Nat.pos_of_ne_zero hsome)
  have hplaced : (chain ++ es)[chain.length]? = some es[0] := by
    rw [List.getElem?_append_right (Nat.le_refl _), Nat.sub_self, hfirst]
  have hheight := htook'.valid.toNat_height hplaced
  obtain ⟨q, hq, hqblock⟩ := h.exists_package (List.getElem_mem (Nat.pos_of_ne_zero hsome))
  refine Replays.held_first h htook hblock ?_ fun q hq c hc hsame => ?_
  · obtain hfront | hlast := List.mem_append.mp hq
    · have hlt := habove q hfront _ hqblock
      omega
    · rw [List.mem_singleton.mp hlast] at hqblock
      rw [← hheight, Except.ok.inj (hblock.symm.trans hqblock)]
  · exact absurd (habove q hq c hc) (hsame ▸ Nat.lt_irrefl _)

/-- With the last one all others are held. -/
theorem Replays.held_whole (h : Replays l packages es l') (htook : l.Took chain)
    (hagree : ParentsAgree chain packages) (hchain : packages.IsChain Continues) (hsome : es.length ≠ 0)
    {p : BlockPackage} (hp : p ∈ packages) : Held l'.store p := by
  have hlast (hne : packages ≠ []) : Held l'.store (packages.getLast hne) := by
    rw [← List.dropLast_append_getLast hne] at h hchain
    exact h.held_last htook hchain hsome
  exact (List.IsChain.iff_mem.mp hchain).backwards_induction (Held l'.store) packages
    (fun p q hpq hheld => h.held_parent htook hagree hpq.2.1 hpq.2.2 hheld) hlast p hp

/-- The packages that are replayed are held as far as they are protected. -/
theorem Replays.covers (h : Replays l packages es l') (htook : l.Took chain) :
    Covers l'.store chain packages es.length where
  reached p hp := by
    obtain ⟨htook', hbelow⟩ := h.took htook
    obtain ⟨b, hblock, hlt⟩ := hbelow p hp
    exact ⟨b, _, hblock, htook'.blockHash_eq_ok_iff.mpr ⟨_, List.getElem?_eq_getElem hlt, rfl⟩⟩
  first front p back b hpackages hblock hheight hfirst :=
    Replays.held_first (hpackages ▸ h) htook hblock hheight hfirst
  parent hagree p _ q hq hcontinues hheld := h.held_parent htook hagree hq hcontinues hheld
  whole hagree hchain hsome p hp := h.held_whole htook hagree hchain hsome hp

end

end Import

/-- After every run from an empty store, and under every registry, a file that is imported well is covered:
there is a block at the height of each of its packages, and it is that of the package where the import
appended the package or the parent of a block tells so. -/
theorem covered_run (checkpoints : Checkpoints) (calls : List LedgerCall) :
    InEveryRun checkpoints calls fun h =>
      ∀ (registry : Checkpoints) (t : FileTree) (path : String) (f : BootstrapFile) (l' : Ledger _)
        (summary : ImportSummary), BootstrapFile.readAt t path = .ok f →
          Import.ofPath (h.ledger.under registry) t path = (l', .ok summary) →
            Import.Covers l'.store h.chain f.packages.items summary.imported := by
  apply inEveryRun_of_faithful
  intro σ _ _ h hf _ _ registry t path f l' summary hfound hresult
  have htook : (h.ledger.under registry).Took h.chain := ⟨hf.valid.unpinned, hf.represents⟩
  have hends := Import.ends_ofPath htook t path
  rw [hresult, hfound] at hends
  obtain ⟨-, es, hreplays, himported, -⟩ := hends.exists_replays
  exact himported ▸ hreplays.covers htook

/-- The blocks of two packages are those that they were made of. -/
theorem blocks_twoBlocks :
    Import.blockOf lower.package = .ok lower.block ∧ Import.blockOf upper.package = .ok upper.block := by
  decide +kernel

/-- The two blocks have different hashes. -/
theorem parentsAgree_twoBlocks : Import.ParentsAgree [lower] [lower.package, upper.package] := by
  have hblocks (b : Block) (hb : Import.Among [lower] [lower.package, upper.package] b) :
      b = lower.block ∨ b = upper.block := by
    obtain hchain | ⟨p, hp, hblock⟩ := hb
    · exact .inl (by simpa using hchain)
    · obtain rfl | hupper := List.mem_cons.mp hp
      · exact .inl (Except.ok.inj (hblock.symm.trans blocks_twoBlocks.1))
      · rw [List.mem_singleton.mp hupper] at hblock
        exact .inr (Except.ok.inj (hblock.symm.trans blocks_twoBlocks.2))
  have hdiffer : lower.block.hash ≠ upper.block.hash := by decide +kernel
  intro b c hb hc hsame
  obtain rfl | rfl := hblocks b hb
  · obtain rfl | rfl := hblocks c hc
    · rfl
    · exact absurd hsame hdiffer
  · obtain rfl | rfl := hblocks c hc
    · exact absurd hsame.symm hdiffer
    · rfl

/-- The first of two packages is skipped and the second one appended, and both are held. -/
theorem covered_twoBlocks :
    ∃ l' f, Import.ofPath lowerLedger twoBlocksFile "chain.dat" = (l', .ok { imported := 1, skipped := 1 }) ∧
      BootstrapFile.readAt twoBlocksFile "chain.dat" = .ok f ∧
      f.packages.items = [lower.package, upper.package] ∧ ∀ p ∈ f.packages.items, Import.Held l'.store p := by
  obtain ⟨l', hresult⟩ := ofPath_twoBlocksFile
  have hread : (BootstrapFile.readAt twoBlocksFile "chain.dat").map (fun f => f.packages.items) =
      .ok [lower.package, upper.package] := by decide +kernel
  obtain ⟨f, hfound, hitems⟩ := map_eq_ok_iff.mp hread
  have hcovers := (covered_run {} [.append lower]).memory ∅ false upperPinned twoBlocksFile "chain.dat" f _ _
    hfound hresult
  have htaken : (Ledger.run ({ store := {} } : Ledger Memory) [.append lower]).chain = [lower] := by
    decide +kernel
  rw [htaken, hitems] at hcovers
  have hcontinues : Import.Continues lower.package upper.package :=
    ⟨_, _, blocks_twoBlocks.1, blocks_twoBlocks.2, by decide, rfl⟩
  refine ⟨l', f, hresult, hfound, hitems, ?_⟩
  rw [hitems]
  exact hcovers.whole parentsAgree_twoBlocks (List.isChain_pair.mpr hcontinues) (by decide)

/-- A package of another first block, which differs from the one above in a number that nothing checks. -/
def rival : BlockPackage := { lower.package with block := { lower.package.block with nonce := 1 } }

/-- A file with this package. -/
def rivalFile : FileTree :=
  BootstrapWriter.treeWith ((BootstrapWriter.create 0 0).file ++ bodyOf [[rival]])

/-- A file whose only package has another first block than the ledger is imported well, and is not held. -/
theorem not_held_rival :
    (BootstrapFile.readAt rivalFile "chain.dat").map (fun f => f.packages.items) = .ok [rival] ∧
    (Import.ofPath lowerLedger rivalFile "chain.dat").2 = .ok { imported := 0, skipped := 1 } ∧
    ¬Import.Held (Import.ofPath lowerLedger rivalFile "chain.dat").1.store rival := by
  have hblock : (Import.blockOf rival).map (fun b => (b.height, b.hash)) =
      .ok (0, .ofContent (Codec.encode rival.block)) := by decide +kernel
  have hheld : Store.blockHash (Import.ofPath lowerLedger rivalFile "chain.dat").1.store 0 ≠
      .ok (.ofContent (Codec.encode rival.block)) := by decide +kernel
  refine ⟨by decide +kernel, by decide +kernel, fun h => ?_⟩
  obtain ⟨b, hb, hhash⟩ := h
  rw [hb] at hblock
  obtain ⟨hheight, hname⟩ := Prod.mk.inj (Except.ok.inj hblock)
  rw [hheight, hname] at hhash
  exact hheld hhash

end RingDepth
