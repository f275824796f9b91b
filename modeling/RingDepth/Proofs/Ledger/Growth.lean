import RingDepth.Proofs.Ledger.Numbering
import RingDepth.Proofs.Ledger.Refusal

/-!
# What an append does

After any run an append is exact in three ways. It is accepted exactly when the block extends the ledger
and the store writes it. Accepted, it adds the block, its height, its transactions and its outputs to what
the lookups find, and nothing else. Refused, it gives the failure of the first check that fails, or that
of the write if none does; and there is no new ledger.

The registry of an append need not be the one under which the ledger grew, so a block that extends the
ledger is compared with the chain under the registry that pins nothing.
-/

namespace RingDepth

/-- The outputs of an amount that a block creates. -/
def Extension.created (e : Extension) (amount : UInt64) : List OutputLocation :=
  e.confirmed.flatMap fun t => t.created e.block.height amount

/-- The hashes of different blocks of a chain differ. -/
def HashesDiffer (chain : List Extension) : Prop :=
  ∀ e ∈ chain, ∀ other ∈ chain, e.block.hash = other.block.hash → e.block = other.block

/-- The second store finds what the first one finds, and all that a block adds. There is one block more, none
was at its height, and the transactions that it confirms were not there. The outputs that it creates come
behind those of their amounts. -/
structure Store.Grown {σ : Type} [Store σ] (s s' : σ) (e : Extension) : Prop where
  blockCount : ∃ n n', Store.blockCount s = .ok n ∧ Store.blockCount s' = .ok n' ∧
    n'.toNat = n.toNat + 1
  heightFree : Store.blockHash s e.block.height = .error (.notFound (.height e.block.height))
  blockHash : Store.blockHash s' =
    Function.update (Store.blockHash s) e.block.height (.ok e.block.hash)
  block : Store.block s' = Function.update (Store.block s) e.block.hash (.ok e.block.encode)
  transactionFree : ∀ t ∈ e.confirmed,
    Store.transaction s t.hash = .error (.notFound (.transaction t.hash))
  confirmed : ∀ t ∈ e.confirmed, Store.transaction s' t.hash = .ok t.encode
  transaction : ∀ hash, hash ∉ e.confirmed.map Transaction.hash →
    Store.transaction s' hash = Store.transaction s hash
  hasTransaction : ∀ hash, Store.hasTransaction s' hash =
    if hash ∈ e.confirmed.map Transaction.hash then .ok true else Store.hasTransaction s hash
  output : ∀ amount, ∃ n n', Store.outputCount s amount = .ok n ∧
    Store.outputCount s' amount = .ok n' ∧ n'.toNat = n.toNat + (e.created amount).length ∧
    ∀ index, Store.output s' ⟨amount, index⟩ =
      if index < n then Store.output s ⟨amount, index⟩
      else Store.answer (.output ⟨amount, index⟩) (e.created amount)[index.toNat - n.toNat]?
  metadata : Store.metadata s' = Store.metadata s

section

variable {checkpoints : Checkpoints} {chain : List Extension} {e : Extension}

/-- One more block confirms its transactions after those of the others. -/
theorem confirmedBy_concat (chain : List Extension) (e : Extension) :
    confirmedBy (chain ++ [e]) = confirmedBy chain ++ e.confirmed := by
  rw [confirmedBy, List.flatMap_append, List.flatMap_singleton, confirmedBy]

/-- One more block creates its outputs after those of the others. -/
theorem createdBy_concat (chain : List Extension) (e : Extension) (amount : UInt64) :
    createdBy (chain ++ [e]) amount = createdBy chain amount ++ e.created amount := by
  rw [createdBy, List.flatMap_append, List.flatMap_singleton, createdBy]
  rfl

/-- A transaction that a block does not confirm is held after it as before. -/
theorem Holdings.transactions_ofChain_concat (valid : ValidChain checkpoints chain)
    (follows : e.Follows checkpoints chain) {hash : TxHash}
    (hother : hash ∉ e.confirmed.map Transaction.hash) :
    (ofChain (chain ++ [e])).transactions hash = (ofChain chain).transactions hash := by
  apply Option.ext
  intro bytes
  rw [transactions_ofChain_eq_some_iff (valid.snoc follows), transactions_ofChain_eq_some_iff valid,
    confirmedBy_concat]
  refine ⟨fun hleft => ?_, fun hright => ?_⟩
  · obtain ⟨t, ht, hhash, hbytes⟩ := hleft
    obtain hold | hnew := List.mem_append.mp ht
    · exact ⟨t, hold, hhash, hbytes⟩
    · exact absurd (hhash ▸ List.mem_map_of_mem hnew) hother
  · obtain ⟨t, ht, hhash, hbytes⟩ := hright
    exact ⟨t, List.mem_append_left _ ht, hhash, hbytes⟩

/-- No block of a chain has the hash of one that follows it, if the hashes of different blocks differ. -/
theorem HashesDiffer.lastNamed?_eq_none (h : HashesDiffer (chain ++ [e]))
    (valid : ValidChain checkpoints chain) (follows : e.Follows checkpoints chain) :
    lastNamed? chain e.block.hash = none := by
  refine List.find?_eq_none.mpr fun other hother => ?_
  rw [List.mem_reverse] at hother
  intro hhash
  have hsame : other.block = e.block :=
    h other (List.mem_append_left _ hother) e (by simp) (of_decide_eq_true hhash)
  -- The same block would have two heights.
  obtain ⟨i, hi⟩ := List.getElem?_of_mem hother
  obtain ⟨hlt, -⟩ := List.getElem?_eq_some_iff.mp hi
  have hheight := valid.toNat_height hi
  rw [hsame, follows.height] at hheight
  omega

/-- The transactions that a block confirms are held after it. -/
theorem Holdings.transactions_ofChain_of_mem (valid : ValidChain checkpoints chain)
    (follows : e.Follows checkpoints chain) {t : Transaction} (ht : t ∈ e.confirmed) :
    (ofChain (chain ++ [e])).transactions t.hash = some t.encode := by
  refine (transactions_ofChain_eq_some_iff (valid.snoc follows)).mpr ⟨t, ?_, rfl, rfl⟩
  rw [confirmedBy_concat]
  exact List.mem_append_right _ ht

namespace Store.Answers

variable {σ : Type} [Store σ] {s s' : σ}

/-- One more block changes the hash at its height and at no other one. -/
theorem blockHash_concat (hs : Answers s (.ofChain chain)) (hs' : Answers s' (.ofChain (chain ++ [e])))
    (follows : e.Follows checkpoints chain) : Store.blockHash s' =
      Function.update (Store.blockHash s) e.block.height (.ok e.block.hash) := by
  funext height
  have hhash := congrFun (Holdings.hash?_concat follows.toNat_height e.block.hash) height
  rw [hs'.blockHash, Holdings.ofChain_concat]
  change Store.answer _ ((Holdings.ofChain chain).hashes ++ [e.block.hash])[height.toNat]? = _
  rw [hhash, Function.update_apply, Function.update_apply, hs.blockHash]
  split <;> rfl

/-- It changes what is found under its hash and under no other one. -/
theorem block_concat (hs : Answers s (.ofChain chain)) (hs' : Answers s' (.ofChain (chain ++ [e]))) :
    Store.block s' = Function.update (Store.block s) e.block.hash (.ok e.block.encode) := by
  funext hash
  rw [hs'.block, Holdings.ofChain_concat]
  change Store.answer _ (Function.update (Holdings.ofChain chain).blocks e.block.hash
    (some e.block.encode) hash) = _
  rw [Function.update_apply, Function.update_apply, hs.block]
  split <;> rfl

/-- It makes known that its transactions came, and changes this of no others. -/
theorem hasTransaction_concat (hs : Answers s (.ofChain chain))
    (hs' : Answers s' (.ofChain (chain ++ [e]))) (valid : ValidChain checkpoints chain)
    (follows : e.Follows checkpoints chain) (hash : TxHash) : Store.hasTransaction s' hash =
      if hash ∈ e.confirmed.map Transaction.hash then .ok true else Store.hasTransaction s hash := by
  rw [hs'.hasTransaction, hs.hasTransaction]
  split
  · obtain ⟨t, ht, rfl⟩ := List.mem_map.mp ‹_›
    rw [Holdings.transactions_ofChain_of_mem valid follows ht]
    rfl
  · rw [Holdings.transactions_ofChain_concat valid follows ‹_›]

/-- It puts the outputs that it creates behind those of their amounts. -/
theorem output_concat (hs : Answers s (.ofChain chain)) (hs' : Answers s' (.ofChain (chain ++ [e])))
    (amount : UInt64) : ∃ n n', Store.outputCount s amount = .ok n ∧
      Store.outputCount s' amount = .ok n' ∧ n'.toNat = n.toNat + (e.created amount).length ∧
      ∀ index, Store.output s' ⟨amount, index⟩ =
        if index < n then Store.output s ⟨amount, index⟩
        else Store.answer (.output ⟨amount, index⟩) (e.created amount)[index.toNat - n.toNat]? := by
  obtain ⟨n, hn, hlength⟩ := hs.outputCount amount
  obtain ⟨n', hn', hlength'⟩ := hs'.outputCount amount
  rw [Holdings.outputs_ofChain] at hlength hlength'
  rw [createdBy_concat, List.length_append, ← hlength] at hlength'
  refine ⟨n, n', hn, hn', hlength', fun index => ?_⟩
  rw [hs'.output, hs.output, Holdings.output?, Holdings.output?, Holdings.outputs_ofChain,
    Holdings.outputs_ofChain, createdBy_concat]
  change Store.answer _ (createdBy chain amount ++ e.created amount)[index.toNat]? = _
  split
  · rename_i hindex
    rw [List.getElem?_append_left (hlength ▸ UInt64.lt_iff_toNat_lt.mp hindex)]
  · rename_i hindex
    have hbehind : (createdBy chain amount).length ≤ index.toNat :=
      hlength ▸ UInt64.le_iff_toNat_le.mp (UInt64.not_lt.mp hindex)
    rw [List.getElem?_append_right hbehind, hlength]

/-- A store that answers from one more block finds what the block adds. -/
theorem grown (hs : Answers s (.ofChain chain)) (hs' : Answers s' (.ofChain (chain ++ [e])))
    (valid : ValidChain checkpoints chain) (follows : e.Follows checkpoints chain)
    (hmetadata : Store.metadata s' = Store.metadata s) : Grown s s' e where
  blockCount := by
    obtain ⟨n, hn, hlength⟩ := hs.blockCount
    obtain ⟨n', hn', hlength'⟩ := hs'.blockCount
    refine ⟨n, n', hn, hn', ?_⟩
    rw [hlength, hlength', Holdings.hashes_ofChain, Holdings.hashes_ofChain]
    simp
  heightFree := by
    rw [hs.blockHash, List.getElem?_eq_none (Nat.le_of_eq follows.toNat_height.symm)]
    rfl
  blockHash := hs.blockHash_concat hs' follows
  block := hs.block_concat hs'
  transactionFree := by
    intro t ht
    rw [hs.transaction, (Holdings.transactions_ofChain_eq_none_iff valid).mpr (follows.fresh t ht)]
    rfl
  confirmed := by
    intro t ht
    rw [hs'.transaction, Holdings.transactions_ofChain_of_mem valid follows ht]
    rfl
  transaction := by
    intro hash hother
    rw [hs'.transaction, hs.transaction, Holdings.transactions_ofChain_concat valid follows hother]
  hasTransaction := hs.hasTransaction_concat hs' valid follows
  output := hs.output_concat hs'
  metadata := hmetadata

end Store.Answers

end

namespace Ledger

variable {σ : Type} [Store σ]

/-- The ledger under another registry. -/
def under (l : Ledger σ) (checkpoints : Checkpoints) : Ledger σ := { l with checkpoints }

/-- A block that extends a ledger under some registry does so under the one that pins nothing. -/
theorem Extends.unpinned {l : Ledger σ} {b : Block} {ts : List Transaction} (h : l.Extends b ts) :
    (l.under .empty).Extends b ts :=
  { h with checkpoint := fun _ hpinned => absurd hpinned (by simp [Checkpoints.get?, under, Checkpoints.empty]) }

end Ledger

/-- An append after a history, under some registry, is exact. It is accepted exactly when the block extends
the ledger and the store writes it, and then the ledger grows by the block, which takes the place of no other
one if the hashes of different blocks differ. Otherwise it is refused with the first failure of its checks, or
with that of the write if none fails. -/
structure History.ExactAppend {σ : Type} [Store σ] (h : History σ) (checkpoints : Checkpoints)
    (e : Extension) : Prop where
  accepted : (∃ hash l, (h.ledger.under checkpoints).append e.block e.transactions = .ok (hash, l)) ↔
    (h.ledger.under checkpoints).Extends e.block e.transactions ∧
      ∃ s, Store.writeBlock h.ledger.store e.toWrite = .ok s
  grown : ∀ hash l, (h.ledger.under checkpoints).append e.block e.transactions = .ok (hash, l) →
    hash = e.block.hash ∧ l.checkpoints = checkpoints ∧ Store.Grown h.ledger.store l.store e
  blockFree : (h.ledger.under checkpoints).Extends e.block e.transactions →
    HashesDiffer (h.chain ++ [e]) →
    Store.block h.ledger.store e.block.hash = .error (.notFound (.block e.block.hash))
  passed : e.refusal? checkpoints h.chain = none ↔
    (h.ledger.under checkpoints).Extends e.block e.transactions
  refused : ∀ halt, (h.ledger.under checkpoints).append e.block e.transactions = .error halt ↔
    (∃ error, e.refusal? checkpoints h.chain = some error ∧ halt = .failure error) ∨
      (e.refusal? checkpoints h.chain = none ∧
        ∃ cause, Store.writeBlock h.ledger.store e.toWrite = .error cause ∧
          halt = cause.map LedgerError.storage)

namespace History.Faithful

variable {σ : Type} [Store σ] [Store.Lawful σ] {h : History σ}

/-- What the checks of an append read is told by the chain, under any registry. -/
theorem shows (hf : h.Faithful) (checkpoints : Checkpoints) :
    (h.ledger.under checkpoints).Shows h.chain := by
  obtain ⟨n, hn, hlength⟩ := hf.answers.blockCount
  rw [Holdings.hashes_ofChain, List.length_map] at hlength
  obtain rfl : n = UInt64.ofNat h.chain.length := by rw [← hlength, UInt64.ofNat_toNat]
  have hparent := (Ledger.parent_iff hf.answers hlength).mpr rfl
  refine ⟨mapError_eq_ok_iff.mpr hn, (Ledger.exists_topHash_eq_ok_iff hn).mpr hparent, fun hash => ?_⟩
  refine mapError_eq_ok_iff.mpr ?_
  change Store.hasTransaction h.ledger.store hash = _
  rw [hf.answers.hasTransaction, Except.ok.injEq, Bool.eq_iff_iff, hasHash_iff,
    Option.isSome_iff_ne_none, Ne, Holdings.transactions_ofChain_eq_none_iff hf.valid, not_not]

/-- A block that extends the ledger under any registry follows the chain, leaving the registry aside. -/
theorem follows_of_extends (hf : h.Faithful) {checkpoints : Checkpoints} {e : Extension}
    (hextends : (h.ledger.under checkpoints).Extends e.block e.transactions) :
    e.Follows .empty h.chain :=
  (Ledger.extends_iff_follows (l := h.ledger.under .empty) hf.valid.unpinned hf.answers e).mp
    hextends.unpinned

/-- Every append after a faithful history is exact. -/
theorem exactAppend (hf : h.Faithful) (checkpoints : Checkpoints) (e : Extension) :
    h.ExactAppend checkpoints e := by
  have hshows := hf.shows checkpoints
  refine ⟨?accepted, ?grown, ?blockFree, hshows.refusal?_eq_none_iff,
    fun _ => hshows.append_eq_error_iff⟩
  case accepted =>
    refine ⟨fun hleft => ?_, fun hright => ?_⟩
    · obtain ⟨hash, l, happend⟩ := hleft
      obtain ⟨-, hextends, s, hwrite, -⟩ := Ledger.append_eq_ok_iff.mp happend
      exact ⟨hextends, s, hwrite⟩
    · obtain ⟨hextends, s, hwrite⟩ := hright
      exact ⟨_, _, Ledger.append_eq_ok_iff.mpr ⟨rfl, hextends, s, hwrite, rfl⟩⟩
  case grown =>
    intro hash l happend
    obtain ⟨hhash, hextends, s, hwrite, rfl⟩ := Ledger.append_eq_ok_iff.mp happend
    have hfollows := hf.follows_of_extends hextends
    have hrepresents := Store.represents_concat hf.represents hfollows hwrite
    exact ⟨hhash, rfl, hf.answers.grown (Store.answers hrepresents) hf.valid.unpinned hfollows
      (Store.metadata_writeBlock hwrite)⟩
  case blockFree =>
    intro hextends hdiffer
    have hnone := hdiffer.lastNamed?_eq_none hf.valid.unpinned (hf.follows_of_extends hextends)
    rw [hf.answers.block, Holdings.blocks_ofChain, hnone]
    rfl

end History.Faithful

/-- After every run from an empty store, appends included that were refused and writes that failed, every
append is exact under every registry. -/
theorem exactAppend_run (checkpoints : Checkpoints) (calls : List LedgerCall) :
    InEveryRun checkpoints calls fun h =>
      ∀ (registry : Checkpoints) (e : Extension), h.ExactAppend registry e :=
  inEveryRun_of_faithful fun _ hf _ _ registry e => hf.exactAppend registry e

/-- After the first of two blocks the first is refused for its height, and the second one is accepted
under the registry that pins it. It takes the place of no other block. -/
theorem exactAppend_twoBlocks :
    let h := Ledger.run { store := ({} : Memory) } [.append lower]
    (h.ledger.under upperPinned).append lower.block lower.transactions =
        .error (.failure (.heightMismatch 1 0)) ∧
      (∃ hash l, (h.ledger.under upperPinned).append upper.block upper.transactions =
        .ok (hash, l)) ∧
      HashesDiffer (h.chain ++ [upper]) ∧
      Store.block h.ledger.store upper.block.hash = .error (.notFound (.block upper.block.hash)) := by
  intro h
  have hexact := (exactAppend_run {} [.append lower]).memory ∅ false
  have hchain : h.chain = [lower] := by decide +kernel
  have hwritten : (Store.writeBlock h.ledger.store upper.toWrite).isOk = true := by decide +kernel
  have hwrite : ∃ s, Store.writeBlock h.ledger.store upper.toWrite = .ok s := by
    cases hs : Store.writeBlock h.ledger.store upper.toWrite with
    | error cause => simp [hs, Except.isOk, Except.toBool] at hwritten
    | ok s => exact ⟨s, rfl⟩
  have hfirst : lower.refusal? upperPinned h.chain = some (.heightMismatch 1 0) := by
    rw [hchain]
    decide +kernel
  have hextends := (hexact upperPinned upper).passed.mp (by rw [hchain]; decide +kernel)
  have hdiffer : HashesDiffer (h.chain ++ [upper]) := by
    rw [hchain, HashesDiffer]
    decide +kernel
  exact ⟨((hexact upperPinned lower).refused _).mpr (.inl ⟨_, hfirst, rfl⟩),
    (hexact upperPinned upper).accepted.mpr ⟨hextends, hwrite⟩, hdiffer,
    (hexact upperPinned upper).blockFree hextends hdiffer⟩

end RingDepth
