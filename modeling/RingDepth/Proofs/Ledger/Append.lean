import Mathlib.Data.List.Nodup
import RingDepth.Ledger.Basic
import RingDepth.Proofs.Outcome

/-!
# When a block is appended

The checks of `Ledger.append` come one after the other and inside a walk over the transactions. Taken
together they say that the block extends the chain: each condition is stated here by itself, without
an order, and an append succeeds exactly when all of them hold and the store writes the block.
-/

namespace RingDepth

variable {σ : Type} [Store σ]

/-- The conditions under which a block and its transactions extend a ledger. The block has the next height,
the last block is its parent, and it meets the checkpoint at its height. The transactions are the listed ones
in their order, and spend something and mint nothing. They and the reward are new and differ. -/
structure Ledger.Extends (l : Ledger σ) (b : Block) (ts : List Transaction) : Prop where
  height : Store.blockCount l.store = .ok b.height
  parent : if b.height = 0 then b.prevHash = .zero
    else Store.blockHash l.store (b.height - 1) = .ok b.prevHash
  checkpoint : ∀ pinned, l.checkpoints.get? b.height = some pinned → b.hash = pinned
  listed : ts.map Transaction.hash = b.txHashes
  spends : ∀ t ∈ ts, t.inputs ≠ [] ∧ ∀ input ∈ t.inputs, input.isTerminal = false
  fresh : ∀ t ∈ b.rewardTx :: ts, Store.hasTransaction l.store t.hash = .ok false
  distinct : ((b.rewardTx :: ts).map Transaction.hash).Nodup

namespace Ledger

/-- A check that throws where a condition holds leaves the rest to be done where it does not hold. -/
theorem throwIf_eq_ok_iff {ε α β : Type} {p : Prop} [Decidable p] {e : ε} {f : α → Except ε β}
    {x : Except ε β} {b : β} : (if p then throw e >>= f else x) = .ok b ↔ ¬p ∧ x = .ok b := by
  by_cases hp : p
  · simp [hp, throw, throwThe, MonadExceptOf.throw, bind, Except.bind]
  · simp [hp]

/-- A check at the end succeeds exactly where the condition under which it throws does not hold. -/
theorem throwLastIf_eq_ok_iff {ε : Type} {p : Prop} [Decidable p] {e : ε} {u : Unit} :
    (if p then throw e else pure () : Except ε Unit) = .ok u ↔ ¬p := by
  by_cases hp : p
  · simp [hp, throw, throwThe, MonadExceptOf.throw]
  · simp [hp, pure, Except.pure]

/-- A registry accepts a hash exactly when no other one is pinned at its height. -/
theorem exists_check_eq_ok_iff {c : Checkpoints} {height : UInt64} {hash : BlockHash} :
    (∃ pinned, c.check height hash = .ok pinned) ↔
      ∀ pinned, c.get? height = some pinned → hash = pinned := by
  unfold Checkpoints.check
  cases c.get? height with
  | none => simp
  | some pinned =>
    by_cases h : pinned = hash
    · simp [h]
    · simp [h, Ne.symm h]

/-- The last block of a ledger of some height is the one below this height. -/
theorem exists_topHash_eq_ok_iff {l : Ledger σ} {height : UInt64} {parent : BlockHash}
    (h : Store.blockCount l.store = .ok height) :
    (∃ top, l.topHash = .ok top ∧ top.getD .zero = parent) ↔
      if height = 0 then parent = .zero else Store.blockHash l.store (height - 1) = .ok parent := by
  unfold topHash Ledger.height
  rw [h]
  by_cases hzero : height = 0
  · simp [hzero, mapError_ok, bind, Except.bind, pure, Except.pure, eq_comm]
  · cases hlast : Store.blockHash l.store (height - 1) with
    | error e => simp [hzero, hlast, mapError_ok, mapError_error, bind, Except.bind]
    | ok top => simp [hzero, hlast, mapError_ok, bind, Except.bind, pure, Except.pure]

/-- A block is in its place exactly when it has the next height, the last block as parent, and the hash
that is pinned at its height. -/
theorem checkPlace_eq_ok_iff {l : Ledger σ} {b : Block} :
    l.checkPlace b = .ok () ↔ Store.blockCount l.store = .ok b.height ∧
      (if b.height = 0 then b.prevHash = .zero
        else Store.blockHash l.store (b.height - 1) = .ok b.prevHash) ∧
      ∀ pinned, l.checkpoints.get? b.height = some pinned → b.hash = pinned := by
  unfold checkPlace
  rw [bind_eq_ok_iff, ← exists_check_eq_ok_iff]
  refine ⟨fun hleft => ?_, fun hright => ?_⟩
  · obtain ⟨height, hheight, hbody⟩ := hleft
    have hcount : Store.blockCount l.store = .ok height := mapError_eq_ok_iff.mp hheight
    obtain ⟨hsame, hrest⟩ := throwIf_eq_ok_iff.mp hbody
    obtain rfl : b.height = height := not_not.mp hsame
    obtain ⟨top, htop, hplaced⟩ := bind_eq_ok_iff.mp hrest
    obtain ⟨hparent, hmet⟩ := throwIf_eq_ok_iff.mp hplaced
    obtain ⟨pinned, hpinned, -⟩ := bind_eq_ok_iff.mp hmet
    exact ⟨hcount, (exists_topHash_eq_ok_iff hcount).mp ⟨top, htop, (not_not.mp hparent).symm⟩,
      pinned, mapError_eq_ok_iff.mp hpinned⟩
  · obtain ⟨hcount, hparent, pinned, hpinned⟩ := hright
    obtain ⟨top, htop, hsame⟩ := (exists_topHash_eq_ok_iff hcount).mpr hparent
    refine ⟨b.height, mapError_eq_ok_iff.mpr hcount, throwIf_eq_ok_iff.mpr ⟨not_not.mpr rfl, ?_⟩⟩
    refine bind_eq_ok_iff.mpr ⟨top, htop, throwIf_eq_ok_iff.mpr ⟨not_not.mpr hsame.symm, ?_⟩⟩
    exact bind_eq_ok_iff.mpr ⟨pinned, mapError_eq_ok_iff.mpr hpinned, rfl⟩

/-- A transaction passes its check exactly when it is the listed one, spends something, mints nothing,
and is neither in the ledger nor the reward of its block. -/
theorem checkListed_eq_ok_iff {l : Ledger σ} {b : Block} {position : ℕ} {t : Transaction}
    {listed : TxHash} :
    l.checkListed b position t listed = .ok () ↔ t.hash = listed ∧
      (t.inputs ≠ [] ∧ ∀ input ∈ t.inputs, input.isTerminal = false) ∧
      Store.hasTransaction l.store t.hash = .ok false ∧ t.hash ≠ b.rewardTx.hash := by
  unfold checkListed
  simp only [throwIf_eq_ok_iff, throwLastIf_eq_ok_iff, bind_eq_ok_iff, contains,
    mapError_eq_ok_iff, not_not, List.isEmpty_iff, Bool.or_eq_true, decide_eq_true_eq, not_or,
    Bool.not_eq_true, List.any_eq_false, ← ne_eq]
  refine ⟨fun hleft => ?_, fun hright => ?_⟩
  · obtain ⟨hhash, hinputs, hmint, found, hfound, rfl, hreward⟩ := hleft
    exact ⟨hhash, ⟨hinputs, hmint⟩, hfound, hreward⟩
  · obtain ⟨hhash, ⟨hinputs, hmint⟩, hfound, hreward⟩ := hright
    exact ⟨hhash, hinputs, hmint, false, hfound, rfl, hreward⟩

/-- As many transactions as are listed pass their checks exactly when they are the listed ones in order
and each of them passes. -/
theorem checkAllListed_eq_ok_iff {l : Ledger σ} {b : Block} {position : ℕ} {ts : List Transaction}
    {listed : List TxHash} (hlength : ts.length = listed.length) :
    l.checkAllListed b position ts listed = .ok () ↔ ts.map Transaction.hash = listed ∧
      ∀ t ∈ ts, (t.inputs ≠ [] ∧ ∀ input ∈ t.inputs, input.isTerminal = false) ∧
        Store.hasTransaction l.store t.hash = .ok false ∧ t.hash ≠ b.rewardTx.hash := by
  induction ts generalizing listed position with
  | nil =>
    obtain rfl : listed = [] := List.length_eq_zero_iff.mp hlength.symm
    simp [checkAllListed]
  | cons t ts ih =>
    cases listed with
    | nil => simp at hlength
    | cons first rest =>
      have hrest : ts.length = rest.length := by simpa using hlength
      rw [checkAllListed, bind_eq_ok_iff, List.map_cons, List.cons.injEq, List.forall_mem_cons]
      refine ⟨fun hleft => ?_, fun hright => ?_⟩
      · obtain ⟨⟨⟩, hfirst, hall⟩ := hleft
        obtain ⟨hhash, hpass⟩ := checkListed_eq_ok_iff.mp hfirst
        obtain ⟨hhashes, hpasses⟩ := (ih hrest).mp hall
        exact ⟨⟨hhash, hhashes⟩, hpass, hpasses⟩
      · obtain ⟨⟨hhash, hhashes⟩, hpass, hpasses⟩ := hright
        exact ⟨(), checkListed_eq_ok_iff.mpr ⟨hhash, hpass⟩, (ih hrest).mpr ⟨hhashes, hpasses⟩⟩

/-- No hash is repeated exactly when all differ from each other and from those seen before. -/
theorem firstRepeated?_eq_none_iff {seen hashes : List TxHash} :
    firstRepeated? seen hashes = none ↔ hashes.Nodup ∧ ∀ hash ∈ hashes, hash ∉ seen := by
  induction hashes generalizing seen with
  | nil => simp [firstRepeated?]
  | cons hash rest ih =>
    rw [firstRepeated?, List.nodup_cons, List.forall_mem_cons]
    by_cases hseen : hash ∈ seen
    · simp [hseen]
    · rw [if_neg hseen, ih]
      simp only [List.mem_cons, not_or]
      refine ⟨fun hleft => ?_, fun hright => ?_⟩
      · obtain ⟨hnodup, hrest⟩ := hleft
        exact ⟨⟨fun hmem => (hrest hash hmem).1 rfl, hnodup⟩, hseen,
          fun other hother => (hrest other hother).2⟩
      · obtain ⟨⟨hhash, hnodup⟩, -, hrest⟩ := hright
        exact ⟨hnodup, fun other hother =>
          ⟨fun heq => hhash (heq ▸ hother), hrest other hother⟩⟩

/-- Transactions pass their checks exactly when they are the listed ones, spend, and are new. -/
theorem checkTransactions_eq_ok_iff {l : Ledger σ} {b : Block} {ts : List Transaction} :
    l.checkTransactions b ts = .ok () ↔ ts.map Transaction.hash = b.txHashes ∧
      (∀ t ∈ ts, t.inputs ≠ [] ∧ ∀ input ∈ t.inputs, input.isTerminal = false) ∧
      (∀ t ∈ b.rewardTx :: ts, Store.hasTransaction l.store t.hash = .ok false) ∧
      ((b.rewardTx :: ts).map Transaction.hash).Nodup := by
  unfold checkTransactions
  simp only [throwIf_eq_ok_iff, bind_eq_ok_iff, contains, mapError_eq_ok_iff, not_not,
    Bool.not_eq_true, List.forall_mem_cons, List.map_cons, List.nodup_cons]
  refine ⟨fun hleft => ?_, fun hright => ?_⟩
  · obtain ⟨hlength, found, hfound, rfl, ⟨⟩, hall, hrepeat⟩ := hleft
    obtain ⟨hlisted, hpass⟩ := (checkAllListed_eq_ok_iff hlength).mp hall
    refine ⟨hlisted, fun t ht => (hpass t ht).1, ⟨hfound, fun t ht => (hpass t ht).2.1⟩, ?_, ?_⟩
    · intro hmem
      obtain ⟨t, ht, hsame⟩ := List.mem_map.mp hmem
      exact (hpass t ht).2.2 hsame
    · split at hrepeat
      · cases hrepeat
      · rename_i hnone
        exact (firstRepeated?_eq_none_iff.mp hnone).1
  · obtain ⟨hlisted, hspends, ⟨hreward, hfresh⟩, hother, hnodup⟩ := hright
    have hlength : ts.length = b.txHashes.length := by rw [← hlisted, List.length_map]
    refine ⟨hlength, false, hreward, rfl, (), ?_, ?_⟩
    · refine (checkAllListed_eq_ok_iff hlength).mpr ⟨hlisted, fun t ht => ?_⟩
      exact ⟨hspends t ht, hfresh t ht, fun hsame => hother (List.mem_map.mpr ⟨t, ht, hsame⟩)⟩
    · rw [firstRepeated?_eq_none_iff.mpr ⟨hnodup, by simp⟩]
      rfl

/-- The checks of an append pass exactly when the block extends the ledger. -/
theorem checks_eq_ok_iff {l : Ledger σ} {b : Block} {ts : List Transaction} :
    (l.checkPlace b >>= fun _ => l.checkTransactions b ts) = .ok () ↔ l.Extends b ts := by
  rw [bind_eq_ok_iff]
  constructor
  · intro h
    obtain ⟨⟨⟩, hplace, htransactions⟩ := h
    obtain ⟨hheight, hparent, hpinned⟩ := checkPlace_eq_ok_iff.mp hplace
    obtain ⟨hlisted, hspends, hfresh, hdistinct⟩ := checkTransactions_eq_ok_iff.mp htransactions
    exact ⟨hheight, hparent, hpinned, hlisted, hspends, hfresh, hdistinct⟩
  · intro h
    have hplace := checkPlace_eq_ok_iff.mpr ⟨h.height, h.parent, h.checkpoint⟩
    have htransactions := checkTransactions_eq_ok_iff.mpr ⟨h.listed, h.spends, h.fresh, h.distinct⟩
    exact ⟨(), hplace, htransactions⟩

/-- An append succeeds exactly when the block extends the ledger and the store writes it. It gives the
hash of the block and the ledger with the store that was written. -/
theorem append_eq_ok_iff {l l' : Ledger σ} {b : Block} {ts : List Transaction} {hash : BlockHash} :
    l.append b ts = .ok (hash, l') ↔ hash = b.hash ∧ l.Extends b ts ∧
      ∃ s, Store.writeBlock l.store (b.toWrite ts) = .ok s ∧ l' = { l with store := s } := by
  unfold append
  simp only [bind_eq_ok_iff, monadLift_eq_ok_iff, within_eq_ok_iff]
  refine ⟨fun hleft => ?_, fun hright => ?_⟩
  · obtain ⟨⟨⟩, hplace, ⟨⟩, htransactions, s, hs, ⟨⟩⟩ := hleft
    have hextends := checks_eq_ok_iff.mp (bind_eq_ok_iff.mpr ⟨(), hplace, htransactions⟩)
    exact ⟨rfl, hextends, s, hs, rfl⟩
  · obtain ⟨rfl, h, s, hs, rfl⟩ := hright
    obtain ⟨⟨⟩, hplace, htransactions⟩ := bind_eq_ok_iff.mp (checks_eq_ok_iff.mpr h)
    exact ⟨(), hplace, (), htransactions, s, hs, rfl⟩

end Ledger

end RingDepth
