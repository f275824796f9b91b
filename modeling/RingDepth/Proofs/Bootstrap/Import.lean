import RingDepth.Bootstrap.InTree
import RingDepth.Proofs.Bootstrap.Export
import RingDepth.Proofs.Ledger.Numbering
import RingDepth.Proofs.Store.Taking

/-!
# What an import takes

An import of the packages of a valid chain into an empty ledger appends all of them. A package gives back
the block and the transactions that its records were made of, as these were put together; and a block
follows those before it in the target as it did in the chain, since the target pins nothing.
-/

namespace RingDepth

/-- A first part of a valid chain is valid. -/
theorem ValidChain.of_append {checkpoints : Checkpoints} {done rest : List Extension}
    (h : ValidChain checkpoints (done ++ rest)) : ValidChain checkpoints done := by
  induction rest using List.reverseRecOn with
  | nil => rwa [List.append_nil] at h
  | append_singleton rest last ih =>
    rw [← List.append_assoc] at h
    generalize hwhole : done ++ rest ++ [last] = whole at h
    cases h with
    | nil => simp at hwhole
    | snoc valid follows =>
      obtain ⟨rfl, -⟩ := List.append_inj' hwhole rfl
      exact ih valid

/-- A first part of a chain adds no more to an empty store than the whole. -/
theorem Holdings.Countable.of_append {done rest : List Extension}
    (h : (ofChain (done ++ rest)).Countable) : (ofChain done).Countable where
  hashes := by
    refine Nat.lt_of_le_of_lt ?_ h.hashes
    rw [hashes_ofChain, hashes_ofChain, List.map_append, List.length_append]
    exact Nat.le_add_right _ _
  outputs amount := by
    refine Nat.lt_of_le_of_lt ?_ (h.outputs amount)
    rw [outputs_ofChain, outputs_ofChain, createdBy, createdBy, List.flatMap_append,
      List.length_append]
    exact Nat.le_add_right _ _

/-- What the lookups of a store answer from is counted. -/
theorem Store.Answers.countable {σ : Type} [Store σ] {s : σ} {c : Holdings} (h : Answers s c) :
    c.Countable where
  hashes := by
    obtain ⟨n, -, hlength⟩ := h.blockCount
    exact hlength ▸ n.toNat_lt
  outputs amount := by
    obtain ⟨n, -, hlength⟩ := h.outputCount amount
    exact hlength ▸ n.toNat_lt

namespace Import

variable {e : Extension}

/-- The package of a block that was put together gives back the block. -/
theorem blockOf_package (hbuilt : e.Built) : blockOf e.package = .ok e.block := by
  obtain ⟨hname, hreward⟩ := hbuilt.block.namedByEncoding
  exact mapError_eq_ok_iff.mpr (Block.ofRecord_eq_ok_iff.mpr ⟨hname, rfl, hreward⟩)

/-- It gives back the transactions. -/
theorem transactionsOf_package (hbuilt : e.Built) :
    transactionsOf e.package = .ok e.transactions := by
  have hread (t : Transaction) (ht : t ∈ e.transactions) :
      Transaction.ofRecord t.toRecord = .ok t :=
    Transaction.ofRecord_eq_ok_iff.mpr ⟨(hbuilt.transactions t ht).namedByEncoding, rfl⟩
  have hall := mapM_map_eq_ok (k := id) hread
  rw [List.map_id] at hall
  exact mapError_eq_ok_iff.mpr hall

section

variable {σ : Type} [Store σ] [Store.Lawful σ] [Store.Taking σ] {l : Ledger σ}
  {done rest : List Extension} {height : UInt64}

/-- The package of a block that follows the chain of a ledger is appended. -/
theorem appendPackage_package (hcheckpoints : l.checkpoints = .empty) (hvalid : ValidChain .empty done)
    (hrepresents : Store.Represents l.store (.ofChain done)) (hheight : height.toNat = done.length)
    (hfollows : e.Follows .empty done) (hbuilt : e.Built)
    (hcount : (Holdings.ofChain (done ++ [e])).Countable)
    (hopen : Store.Taking.Open l.store (e.toWrite :: rest.map Extension.toWrite)) :
    ∃ s, appendPackage l height e.package = .ok (some { l with store := s }) ∧
      Store.Represents s (.ofChain (done ++ [e])) ∧
      Store.Taking.Open s (rest.map Extension.toWrite) := by
  rw [Holdings.ofChain_concat] at hcount
  obtain ⟨s, hs, hopen'⟩ :=
    Store.Taking.exists_writeBlock hopen hrepresents hfollows.toNat_height hcount
  have hextends : l.Extends e.block e.transactions := by
    refine (Ledger.extends_iff_follows ?_ (Store.answers hrepresents) e).mpr ?_
    · exact hcheckpoints ▸ hvalid
    · exact hcheckpoints ▸ hfollows
  have happend : l.append e.block e.transactions = .ok (e.block.hash, { l with store := s }) :=
    Ledger.append_eq_ok_iff.mpr ⟨rfl, hextends, s, hs, rfl⟩
  have hnotBelow : ¬e.block.height < height := by
    rw [UInt64.lt_iff_toNat_lt, hfollows.height, hheight]
    exact Nat.lt_irrefl _
  refine ⟨s, ?_, Store.represents_concat hrepresents hfollows hs, hopen'⟩
  refine bind_eq_ok_iff.mpr ⟨e.block, monadLift_eq_ok_iff.mpr (blockOf_package hbuilt), ?_⟩
  dsimp only
  rw [if_neg hnotBelow]
  exact bind_eq_ok_iff.mpr ⟨e.transactions, monadLift_eq_ok_iff.mpr (transactionsOf_package hbuilt),
    bind_eq_ok_iff.mpr ⟨_, within_eq_ok_iff.mpr happend, rfl⟩⟩

/-- The packages of a chain behind the blocks of a ledger are appended, one after the other. -/
theorem appendPackages_packages (hcheckpoints : l.checkpoints = .empty)
    (hvalid : ValidChain .empty (done ++ rest))
    (hrepresents : Store.Represents l.store (.ofChain done)) (hheight : height.toNat = done.length)
    (hbuilt : ∀ e ∈ rest, e.Built) (hcount : (Holdings.ofChain (done ++ rest)).Countable)
    (hopen : Store.Taking.Open l.store (rest.map Extension.toWrite)) (summary : ImportSummary) :
    ∃ s, appendPackages l height summary (rest.map Extension.package) =
        ({ l with store := s },
          .ok { summary with imported := summary.imported + rest.length }) ∧
      Store.Represents s (.ofChain (done ++ rest)) := by
  -- On what is still to come; what was appended is the chain of the store.
  induction rest generalizing done l height summary with
  | nil =>
    rw [List.append_nil]
    exact ⟨l.store, rfl, hrepresents⟩
  | cons e rest ih =>
    have hwhole : done ++ e :: rest = done ++ [e] ++ rest := by simp
    have he : (done ++ e :: rest)[done.length]? = some e := by simp
    have hfollows : e.Follows .empty done := by
      have hposition := hvalid.follows he
      rwa [List.take_left] at hposition
    obtain ⟨hfirst, hothers⟩ := List.forall_mem_cons.mp hbuilt
    rw [hwhole] at hvalid hcount ⊢
    obtain ⟨s, happend, hs, hopen'⟩ := appendPackage_package hcheckpoints hvalid.of_append.of_append
      hrepresents hheight hfollows hfirst hcount.of_append hopen
    have hroom : height.toNat + 1 < UInt64.size := by
      have hhashes := hcount.of_append.hashes
      rw [Holdings.hashes_ofChain, List.length_map, List.length_append] at hhashes
      exact hheight ▸ hhashes
    have hheight' : (height + 1).toNat = (done ++ [e]).length := by
      rw [Ledger.toNat_above hroom, hheight, List.length_append, List.length_singleton]
    obtain ⟨last, hlast, hrepresents'⟩ := ih (l := { l with store := s }) hcheckpoints hvalid hs
      hheight' hothers hcount hopen' { summary with imported := summary.imported + 1 }
    refine ⟨last, ?_, hrepresents'⟩
    rw [List.map_cons, appendPackages, happend]
    dsimp only
    rw [hlast, List.length_cons, Nat.add_assoc, Nat.add_comm 1]

/-- A file that carries the packages of a valid chain is imported as a whole into an empty store. -/
theorem ofPath_packages {s : σ} {checkpoints : Checkpoints} {chain : List Extension} {t : FileTree}
    {path : String} {bytes : Bytes} (hfile : t.HoldsFile path bytes)
    (hcarries : BootstrapFile.Carries bytes (chain.map Extension.package))
    (hvalid : ValidChain checkpoints chain) (hbuilt : ∀ e ∈ chain, e.Built)
    (hcount : (Holdings.ofChain chain).Countable) (hempty : Store.Represents s .empty)
    (hopen : Store.Taking.Open s (chain.map Extension.toWrite)) :
    ∃ s', ofPath { store := s } t path =
        ({ store := s' }, .ok { imported := chain.length, skipped := 0 }) ∧
      Store.Represents s' (.ofChain chain) := by
  obtain ⟨file, hread, hitems, hfailure⟩ := hcarries
  obtain ⟨n, hn, hzero⟩ := (Store.answers hempty).blockCount
  have hheight : Ledger.height ({ store := s } : Ledger σ) = .ok n := mapError_eq_ok_iff.mpr hn
  obtain ⟨s', happend, hrepresents⟩ := @appendPackages_packages σ _ _ _ { store := s } [] chain n
    rfl hvalid.unpinned hempty hzero hbuilt hcount hopen {}
  refine ⟨s', ?_, hrepresents⟩
  rw [ofPath, BootstrapFile.bytesAt, hfile.readBytes, mapError_ok]
  dsimp only
  rw [run, hread]
  dsimp only
  rw [hheight]
  dsimp only
  rw [hitems, hfailure, happend, Nat.zero_add]

end

end Import

end RingDepth
