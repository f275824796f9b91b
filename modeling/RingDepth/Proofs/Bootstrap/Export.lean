import RingDepth.Proofs.Bootstrap.Growth
import RingDepth.Proofs.Ledger.Confirmation

/-!
# What an export writes

An export of a ledger to a path at which nothing is leaves a file there that carries one package for each
block of the chain, in order. A package holds the records of the block and of its transactions as they
were taken, since decoded lookups give back what the chain took.
-/

namespace RingDepth

/-- A block and its transactions as records. -/
def Extension.package (e : Extension) : BlockPackage where
  block := e.block.toRecord
  transactions := e.transactions.map Transaction.toRecord

namespace History.Faithful

variable {σ : Type} [Store σ] [Store.Lawful σ] {h : History σ}

/-- The package at a height holds the records of the block of the chain at this position. -/
theorem packageAt (hf : h.Faithful) (hbuilt : ∀ e ∈ h.chain, e.Built)
    (hdigests : DigestsDiffer h.chain) {height : UInt64} {e : Extension}
    (he : h.chain[height.toNat]? = some e) :
    Export.packageAt h.ledger.store height = .ok e.package := by
  have hmem : e ∈ h.chain := List.mem_of_getElem? he
  have hblock : Store.blockAt h.ledger.store height = .ok e.block.encode := by
    refine bind_eq_ok_iff.mpr ⟨e.block.hash, ?_, hf.block hbuilt hdigests hmem⟩
    rw [hf.blockHash, he]
    rfl
  have htransactions : (e.transactions.map Transaction.hash).mapM (fun hash => do
      let bytes ← (Store.transaction h.ledger.store hash).mapError BootstrapError.store
      readRecord TxRecord bytes) = .ok (e.transactions.map Transaction.toRecord) := by
    refine mapM_map_eq_ok fun t ht => bind_eq_ok_iff.mpr ⟨t.encode, ?_, ?_⟩
    · have hconfirmed : t ∈ confirmedBy h.chain :=
        List.mem_flatMap.mpr ⟨e, hmem, List.mem_cons_of_mem _ ht⟩
      exact mapError_eq_ok_iff.mpr (hf.transaction_eq_ok_iff.mpr ⟨t, hconfirmed, rfl, rfl⟩)
    · exact readRecord_encode ((hbuilt e hmem).transactionsFit t ht)
  refine bind_eq_ok_iff.mpr ⟨e.block.encode, mapError_eq_ok_iff.mpr hblock, bind_eq_ok_iff.mpr
    ⟨e.block.toRecord, readRecord_encode (hbuilt e hmem).blockFits, bind_eq_ok_iff.mpr
      ⟨e.transactions.map Transaction.toRecord, ?_, rfl⟩⟩⟩
  rw [(hf.valid.follows he).listed] at htransactions
  exact htransactions

/-- Packages that the store of a faithful history has at heights one after the other are those of blocks of
the chain that follow each other. -/
theorem infix_of_supplies (hf : h.Faithful) (hbuilt : ∀ e ∈ h.chain, e.Built)
    (hdigests : DigestsDiffer h.chain) {first : ℕ} {packages : List BlockPackage}
    (hsupplied : Export.Supplies h.ledger.store first packages) :
    packages <:+: h.chain.map Extension.package := by
  have hsame (i : ℕ) (p : BlockPackage) (hp : packages[i]? = some p) :
      (h.chain.map Extension.package)[first + i]? = some p := by
    obtain ⟨height, hheight, hstored⟩ := hsupplied i p hp
    obtain ⟨bytes, hbytes, -⟩ := hstored.block
    obtain ⟨hash, hhash, -⟩ := bind_eq_ok_iff.mp hbytes
    rw [hf.blockHash, Store.answer_eq_ok_iff] at hhash
    obtain ⟨e, he, -⟩ := Option.map_eq_some_iff.mp hhash
    have hpackage := hf.packageAt hbuilt hdigests he
    rw [Export.packageAt_eq_ok_iff.mpr hstored] at hpackage
    rw [← hheight, List.getElem?_map, he, Except.ok.inj hpackage]
    rfl
  have htake : packages = ((h.chain.map Extension.package).drop first).take packages.length := by
    apply List.ext_getElem?
    intro i
    rw [List.getElem?_take, List.getElem?_drop]
    by_cases hi : i < packages.length
    · rw [if_pos hi, hsame i _ (List.getElem?_eq_getElem hi), List.getElem?_eq_getElem hi]
    · rw [if_neg hi, List.getElem?_eq_none (Nat.le_of_not_lt hi)]
  rw [htake]
  exact (List.take_prefix _ _).isInfix.trans (List.drop_suffix _ _).isInfix

/-- All chunks that may be written fit if the packages of the chain do. -/
theorem chunksFit (hf : h.Faithful) (hbuilt : ∀ e ∈ h.chain, e.Built) (hdigests : DigestsDiffer h.chain)
    (hruns : RunsFit (h.chain.map Extension.package)) : Export.ChunksFit h.ledger.store := by
  intro first packages hsupplied packagesOfChunk hpart
  exact hruns packagesOfChunk (hpart.trans (hf.infix_of_supplies hbuilt hdigests hsupplied))

/-- An export to a path at which nothing is leaves a file there that carries the packages of the chain. -/
theorem export_toPath (hf : h.Faithful) (hbuilt : ∀ e ∈ h.chain, e.Built)
    (hdigests : DigestsDiffer h.chain) (hne : h.chain ≠ [])
    (hruns : RunsFit (h.chain.map Extension.package)) {t : FileTree} {path : String}
    (hpath : BootstrapWriter.FreshPath t path) :
    ∃ t' last bytes, Export.toPath h.ledger.store t path 0 0 =
        (t', .ok { first := 0, last, written := h.chain.length }) ∧
      t'.HoldsFile path bytes ∧ BootstrapFile.Carries bytes (h.chain.map Extension.package) := by
  obtain ⟨count, hcount, hblocks⟩ := hf.answers.blockCount
  rw [Holdings.hashes_ofChain, List.length_map] at hblocks
  have hbefore : ChainFile.KeptAt t path none := hpath
  obtain ⟨after, hafter, hends⟩ :=
    Export.ends_toPath hbefore ⟨count, hcount⟩ (hf.chunksFit hbuilt hdigests hruns) 0 0
  rcases htoPath : Export.toPath h.ledger.store t path 0 0 with ⟨t', result⟩
  rw [htoPath] at hafter hends
  cases hends with
  | empty hempty =>
    obtain rfl : count = 0 := Except.ok.inj (hcount.symm.trans hempty)
    exact absurd (List.length_eq_zero_iff.mp hblocks.symm) hne
  | gap _ hfound => cases hfound
  | @finished first last f f' added hlast hopened _ hfirst hsupplied hlength hgrown =>
    obtain ⟨hzero, hnone⟩ := hopened
    have hnext : f.next = 0 := by
      rw [ChainFile.next, hzero, hnone]
      rfl
    rw [hnext] at hfirst hsupplied hlength
    rw [Nat.sub_zero, hlast.toNat_zero hcount, hblocks] at hlength
    obtain rfl : first = 0 := UInt64.toNat_inj.mp hfirst
    have hall : added = h.chain.map Extension.package :=
      (hf.infix_of_supplies hbuilt hdigests hsupplied).eq_of_length (by rw [hlength, List.length_map])
    have hpackages : f'.packages = h.chain.map Extension.package := by
      rw [hgrown.packages, hnone, hall, List.nil_append]
    obtain ⟨hsound, hkeeps⟩ := hafter
    exact ⟨t', last, f'.bytes, by rw [hlength], hkeeps.holds, hpackages ▸ hsound.carries⟩
  | @broken last height _ _ _ _ hlast _ _ _ _ hle hfailed _ =>
    -- Every package of the chain is fetched.
    have hlt : height.toNat < h.chain.length := by
      rw [← hblocks, ← hlast.toNat_zero hcount]
      exact Nat.lt_succ_of_le (UInt64.le_iff_toNat_le.mp hle)
    rw [hf.packageAt hbuilt hdigests (List.getElem?_eq_getElem hlt)] at hfailed
    cases hfailed

end History.Faithful

end RingDepth
