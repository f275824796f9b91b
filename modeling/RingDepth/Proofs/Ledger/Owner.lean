import RingDepth.Proofs.Ledger.Numbering
import RingDepth.Proofs.Ledger.ReadBack
import RingDepth.Proofs.Outcome
import RingDepth.Proofs.Trace.Ownership

/-!
# Owners in a ledger

Every output of a chain was created by a transaction of the block at its height, so the search for its
owner finds one there. It takes the first transaction of this block that has an output with the key; this
need not be the one that created the output.
-/

namespace RingDepth

/-- The outputs that a chain created include those that its first blocks created, and first of all. -/
theorem getElem?_createdBy_take {chain : List Extension} {n i : ℕ} {amount : UInt64}
    (hi : i < (createdBy (chain.take n) amount).length) :
    (createdBy chain amount)[i]? = (createdBy (chain.take n) amount)[i]? := by
  have hsplit : createdBy chain amount =
      createdBy (chain.take n) amount ++ createdBy (chain.drop n) amount := by
    rw [createdBy, createdBy, createdBy, ← List.flatMap_append, List.take_append_drop]
  rw [hsplit, List.getElem?_append_left hi]

/-- An output that a chain created was created by a transaction that one of its blocks confirms. -/
theorem exists_creator {chain : List Extension} {amount : UInt64} {i : ℕ} {location : OutputLocation}
    (h : (createdBy chain amount)[i]? = some location) :
    ∃ (j : ℕ) (e : Extension), chain[j]? = some e ∧ location.height = e.block.height ∧
      ∃ t ∈ e.confirmed, (⟨amount, location.key⟩ : Output) ∈ t.outputs := by
  obtain ⟨e, he, hcreated⟩ := List.mem_flatMap.mp (List.mem_of_getElem? h)
  obtain ⟨t, ht, hlocation⟩ := List.mem_flatMap.mp hcreated
  obtain ⟨output, houtput, rfl⟩ := List.mem_map.mp hlocation
  obtain ⟨hmem, hamount⟩ := List.mem_filter.mp houtput
  obtain ⟨j, hj⟩ := List.getElem?_of_mem he
  obtain rfl : output.amount = amount := by simpa using hamount
  exact ⟨j, e, hj, rfl, t, ht, hmem⟩

namespace History.Faithful

variable {σ : Type} [Store σ] [Store.Lawful σ] {h : History σ}

/-- The output with a number is the one that the chain created at this position. -/
theorem reader_output (hf : h.Faithful) (id : OutputId) :
    (Reader.ofStore h.ledger.store).output id =
      .ok (createdBy h.chain id.amount)[id.index.toNat]? := by
  change Reader.found (Store.output h.ledger.store id) = _
  rw [hf.answers.output, Holdings.output?, Holdings.outputs_ofChain]
  cases (createdBy h.chain id.amount)[id.index.toNat]? <;> rfl

/-- A transaction that a block of the chain confirms is read under its hash. -/
theorem reader_confirmed (hf : h.Faithful) (hbuilt : ∀ e ∈ h.chain, e.Built) {i : ℕ} {e : Extension}
    (he : h.chain[i]? = some e) {t : Transaction} (ht : t ∈ e.confirmed) :
    (Reader.ofStore h.ledger.store).transaction t.hash = .ok (some t) :=
  hf.reader_transaction hbuilt (List.mem_flatMap.mpr ⟨e, List.mem_of_getElem? he, ht⟩)

/-- An output of the chain has an owner exactly if the block at its height has one. -/
theorem result_findOwner_eq_ok_iff (hf : h.Faithful) (hbuilt : ∀ e ∈ h.chain, e.Built)
    (hdigests : DigestsDiffer h.chain) {policy : OwnerPolicy} {id : OutputId} {location : OutputLocation}
    {e : Extension} (hlocation : (createdBy h.chain id.amount)[id.index.toNat]? = some location)
    (he : h.chain[location.height.toNat]? = some e) {owner : TxHash} :
    (Trace.findOwner (Reader.ofStore h.ledger.store) policy id).result = .ok owner ↔
      (Trace.ownerIn (Reader.ofStore h.ledger.store) policy id location e.block).result =
        .ok (some owner) := by
  have houtput : (Reader.ofStore h.ledger.store).output id = .ok (some location) := by
    rw [hf.reader_output, hlocation]
  have hblock : (Reader.ofStore h.ledger.store).block location.height = .ok (some e.block) := by
    rw [hf.reader_block hbuilt hdigests, he]
    rfl
  rw [Trace.result_findOwner_of_located houtput hblock, bind_eq_ok_iff]
  refine ⟨fun hleft => ?_, fun hright => ⟨some owner, hright, rfl⟩⟩
  obtain ⟨found, hfound, howner⟩ := hleft
  cases found with
  | none => cases howner
  | some hash => rwa [← Except.ok.inj howner]

/-- The first owner of an output is the first transaction that has its key, among those which the block at
its height confirms. -/
theorem result_findOwner (hf : h.Faithful) (hbuilt : ∀ e ∈ h.chain, e.Built)
    (hdigests : DigestsDiffer h.chain) {id : OutputId} {location : OutputLocation} {e : Extension}
    (hlocation : (createdBy h.chain id.amount)[id.index.toNat]? = some location)
    (he : h.chain[location.height.toNat]? = some e) {t : Transaction}
    (ht : (e.confirmed.find? fun t => t.owns location.key) = some t) :
    (Trace.findOwner (Reader.ofStore h.ledger.store) .firstMatch id).result = .ok t.hash := by
  have hread (t : Transaction) (hlisted : t ∈ e.transactions) :
      (Reader.ofStore h.ledger.store).transaction t.hash = .ok (some t) :=
    hf.reader_confirmed hbuilt he (List.mem_cons_of_mem _ hlisted)
  rw [hf.result_findOwner_eq_ok_iff hbuilt hdigests hlocation he]
  rw [Extension.confirmed, List.find?_cons] at ht
  cases howns : e.block.rewardTx.owns location.key with
  | true =>
    rw [howns] at ht
    cases ht
    simp [Trace.ownerIn, howns]
  | false =>
    rw [howns] at ht
    simp only [Trace.ownerIn, howns, Bool.false_eq_true, if_false]
    rw [← (hf.valid.follows he).listed, Trace.result_firstOwner hread]
    exact congrArg (fun found => Except.ok (Option.map Transaction.hash found)) ht

end History.Faithful

end RingDepth
