import RingDepth.Proofs.Ledger.Tracing
import RingDepth.Proofs.Trace.Intact

/-!
# Failures of traces in a ledger

The index of outputs points at blocks of the chain, each block confirms a transaction that has the key of
each output which it created, and all transactions of the chain are read under their hashes. So the
lookups of a ledger are intact, and a trace from a confirmed transaction fails only for what the rings of
its ledger are free to name, or in the search itself. Rings that name an output of their own block or of
a later one are no exception, although they may lead round in a circle.
-/

namespace RingDepth

namespace History.Faithful

variable {σ : Type} [Store σ] [Store.Lawful σ] {h : History σ}

/-- The lookups of a ledger are intact for the transactions that its chain confirms. -/
theorem intact (hf : h.Faithful) (hbuilt : ∀ e ∈ h.chain, e.Built) (hdigests : DigestsDiffer h.chain) :
    Trace.Intact (Reader.ofStore h.ledger.store) (· ∈ confirmedBy h.chain) where
  transaction _ ht := hf.reader_transaction hbuilt ht
  output id := ⟨_, hf.reader_output id⟩
  block := by
    intro id location hlocation
    rw [hf.reader_output, Except.ok.injEq] at hlocation
    obtain ⟨i, e, he, hheight, t, ht, houtput⟩ := exists_creator hlocation
    have hplace : h.chain[location.height.toNat]? = some e := by
      rw [hheight, hf.valid.toNat_height he, he]
    refine ⟨e.block, e.transactions, ?_, (hf.valid.follows he).listed, fun t ht => ?_, t, ht, ?_⟩
    · rw [hf.reader_block hbuilt hdigests, hplace]
      rfl
    · exact List.mem_flatMap.mpr ⟨e, List.mem_of_getElem? he, ht⟩
    · exact List.any_eq_true.mpr ⟨_, houtput, decide_eq_true rfl⟩

/-- A trace from a confirmed transaction has no failures but those that intact lookups leave. -/
theorem trace_eq_error (hf : h.Faithful) (hbuilt : ∀ e ∈ h.chain, e.Built)
    (hdigests : DigestsDiffer h.chain) {c : TraceConfig} {place : TxPlace} {hash : TxHash}
    (hplace : place.Confirms (Reader.ofStore h.ledger.store) hash) {e : TraceError}
    (he : trace (Reader.ofStore h.ledger.store) c hash = .error e) :
    e.OfIntact (Reader.ofStore h.ledger.store) c hash := by
  obtain ⟨extension, hextension, hindex⟩ := (hf.confirms_iff hbuilt hdigests).mp hplace
  have hmem : extension ∈ h.chain := List.mem_of_getElem? hextension
  rw [← hf.valid.map_hash_confirmed hmem, List.getElem?_map] at hindex
  obtain ⟨t, ht, rfl⟩ := Option.map_eq_some_iff.mp hindex
  have hconfirmed : t ∈ confirmedBy h.chain :=
    List.mem_flatMap.mpr ⟨extension, hmem, List.mem_of_getElem? ht⟩
  exact (hf.intact hbuilt hdigests).trace_eq_error hconfirmed he

end History.Faithful

/-- After every run from an empty store a trace from a confirmed transaction, under any settings, has no
failures but those that intact lookups leave, if the blocks and transactions that were appended were put
together, and the digests of different blocks that the run took differ. -/
theorem intactFailures_run (checkpoints : Checkpoints) (calls : List LedgerCall)
    (hbuilt : ∀ e, .append e ∈ calls → e.Built) :
    InEveryRun checkpoints calls fun h =>
      DigestsDiffer h.chain →
        ∀ (c : TraceConfig) (place : TxPlace) (hash : TxHash) (e : TraceError),
          place.Confirms (Reader.ofStore h.ledger.store) hash →
          trace (Reader.ofStore h.ledger.store) c hash = .error e →
          e.OfIntact (Reader.ofStore h.ledger.store) c hash := by
  apply inEveryRun_of_faithful
  intro σ _ _ h hf happended _ hdigests c place hash e hplace he
  have hchain (e : Extension) (he : e ∈ h.chain) : e.Built := hbuilt e (happended e he)
  exact hf.trace_eq_error hchain hdigests hplace he

/-- A transaction that names an output which is not there. -/
def dangling : Transaction := .new 0 [.keyed 5 [7] .zero] [] []

/-- A transaction that names the output which it creates, the only one with its key. -/
def circular : Transaction := .new 0 [.keyed 9 [0] .zero] [⟨9, .ofContent []⟩] []

/-- A second block, which confirms both. -/
def unfounded : Extension :=
  ⟨blockOf 1 lower.block.hash [dangling.hash, circular.hash], [dangling, circular]⟩

/-- The blocks and the transactions were put together. -/
theorem built_unfounded {e : Extension} (he : .append e ∈ [LedgerCall.append lower, .append unfounded]) :
    e.Built := by
  have hcase : e = lower ∨ e = unfounded := by simpa using he
  obtain rfl | rfl := hcase
  · exact built_blockOf _ _ [] (by decide) (List.forall_mem_nil _) (List.forall_mem_nil _)
  · refine built_blockOf _ _ [dangling, circular] (by decide) ?_ ?_
    · exact List.forall_mem_cons.mpr ⟨.new _ _ _ _, List.forall_mem_singleton.mpr (.new _ _ _ _)⟩
    · refine List.forall_mem_cons.mpr ⟨fits_keyed 5 .zero (by decide) (by decide), ?_⟩
      exact List.forall_mem_singleton.mpr (fits_keyed 9 .zero (by decide) (by decide))

/-- The history of a store in memory that takes both blocks. -/
def unfoundedHistory : History Memory :=
  Ledger.run { store := {} } [.append lower, .append unfounded]

/-- One of the two transactions fails for an output that is not there, the other one comes back to itself
and finds no reward. -/
theorem intactFailures_unfounded :
    let r := Reader.ofStore unfoundedHistory.ledger.store
    DigestsDiffer unfoundedHistory.chain ∧
      trace r {} dangling.hash = .error (.missingOutput ⟨5, 7⟩) ∧
      (TraceError.missingOutput ⟨5, 7⟩).OfIntact r {} dangling.hash ∧
      trace r {} circular.hash = .error (.exhausted circular.hash 0) ∧
      (TraceError.exhausted circular.hash 0).OfIntact r {} circular.hash := by
  intro r
  have hchain : unfoundedHistory.chain = [lower, unfounded] := by decide +kernel
  have hdigests : DigestsDiffer unfoundedHistory.chain := by
    rw [hchain]
    exact .of_nodup (by decide +kernel)
  have hmissing : trace r {} dangling.hash = .error (.missingOutput ⟨5, 7⟩) := by decide +kernel
  have hcircle : trace r {} circular.hash = .error (.exhausted circular.hash 0) := by decide +kernel
  have hblock : r.block 1 = .ok (some unfounded.block) := by decide +kernel
  have hfirst : (TxPlace.listed 1 0).Confirms r dangling.hash := ⟨unfounded.block, hblock, rfl⟩
  have hsecond : (TxPlace.listed 1 1).Confirms r circular.hash := ⟨unfounded.block, hblock, rfl⟩
  have hrun := (intactFailures_run {} [.append lower, .append unfounded]
    fun e => built_unfounded).memory ∅ false
  rw [← unfoundedHistory] at hrun
  exact ⟨hdigests, hmissing, hrun hdigests {} _ _ _ hfirst hmissing, hcircle,
    hrun hdigests {} _ _ _ hsecond hcircle⟩

end RingDepth
