import RingDepth.Proofs.Ledger.Creation
import RingDepth.Proofs.Trace.Strictness

/-!
# Outputs that share a key

Outputs are numbered within an amount, but the search for an owner compares keys only. So what it finds in the
block of an output has an output with the key, and need not have one of the amount: another transaction of the
block, the reward above all, may have used the key for an output of another amount and stand before it. A search
that rejects two owners finds none but the one that created the output.
-/

namespace RingDepth

/-- Whether a transaction has an output. -/
def Transaction.has (t : Transaction) (output : Output) : Bool := t.outputs.any (· = output)

/-- A transaction that has an output has its key. -/
theorem Transaction.owns_of_has {t : Transaction} {output : Output} (h : t.has output = true) :
    t.owns output.key = true := by
  obtain ⟨other, hmem, hsame⟩ := List.any_eq_true.mp h
  refine List.any_eq_true.mpr ⟨other, hmem, decide_eq_true ?_⟩
  rw [of_decide_eq_true hsame]

/-- The first element with a property is the first with a narrower one exactly if it has this one. -/
theorem find?_eq_some_iff_of_imp {α : Type} {p q : α → Bool} {xs : List α} {a : α}
    (hpq : ∀ x, q x = true → p x = true) (h : xs.find? p = some a) : xs.find? q = some a ↔ q a = true := by
  constructor
  · exact List.find?_some
  · intro ha
    obtain ⟨-, front, behind, rfl, hfront⟩ := List.find?_eq_some_iff_append.mp h
    refine List.find?_eq_some_iff_append.mpr ⟨ha, front, behind, rfl, fun x hx => ?_⟩
    rw [Bool.not_eq_true']
    exact Bool.eq_false_of_not_eq_true fun hq => by simpa [hpq x hq] using hfront x hx

/-- Whether a transaction is one that the block of an output confirms and that has its key. -/
structure Trace.KeyOwner (r : Reader) (id : OutputId) (location : OutputLocation) (t : Transaction) : Prop where
  located : r.output id = .ok (some location)
  confirmed : ∃ b, r.block location.height = .ok (some b) ∧ t.hash ∈ b.confirmedHashes
  read : r.transaction t.hash = .ok (some t)
  owns : t.owns location.key = true

/-- What the search for an output finds among the transactions that a block confirms: the first one with the
key. It has the output exactly if it is the first one that has, and always if two owners are rejected. -/
structure Extension.FindsFirst (e : Extension) (policy : OwnerPolicy) (output : Output) (t : Transaction) :
    Prop where
  first : (e.confirmed.find? fun other => other.owns output.key) = some t
  has_iff : t.has output = true ↔ (e.confirmed.find? fun other => other.has output) = some t
  strict : policy = .rejectAmbiguous → t.has output = true

namespace Trace

variable {r : Reader} {policy : OwnerPolicy} {id : OutputId} {owner : TxHash}

/-- If an owner is found for an output, then the output and its block are there. -/
theorem exists_located (h : (findOwner r policy id).result = .ok owner) :
    ∃ location b, r.output id = .ok (some location) ∧ r.block location.height = .ok (some b) := by
  obtain ⟨location, hlocation, hscan⟩ := Traced.result_bind_eq_ok.mp h
  obtain ⟨b, hblock, -⟩ := Traced.result_bind_eq_ok.mp hscan
  refine ⟨location, b, ?_, ?_⟩
  · obtain ⟨-, -, houtput⟩ := Traced.result_bind_eq_ok.mp hlocation
    split at houtput
    all_goals cases houtput
    assumption
  · obtain ⟨-, -, hread⟩ := Traced.result_bind_eq_ok.mp hblock
    split at hread
    all_goals cases hread
    assumption

/-- If an owner is found for an output, then it is the first one in the block. -/
theorem result_findOwner_firstMatch (h : (findOwner r policy id).result = .ok owner) :
    (findOwner r .firstMatch id).result = .ok owner := by
  cases policy with
  | firstMatch => exact h
  | rejectAmbiguous => exact refines_findOwner id owner h

end Trace

/-- An output was created with the amount under which it is numbered. -/
theorem amount_of_mem_creations {chain : List Extension} {amount : UInt64} {c : Creation}
    (h : c ∈ creations chain amount) : c.output.amount = amount := by
  obtain ⟨e, -, hconfirmed⟩ := List.mem_flatMap.mp h
  obtain ⟨t, -, hcreated⟩ := List.mem_flatMap.mp hconfirmed
  obtain ⟨output, houtput, rfl⟩ := List.mem_map.mp hcreated
  exact of_decide_eq_true (List.mem_filter.mp houtput).2

namespace History.Faithful

variable {σ : Type} [Store σ] [Store.Lawful σ] {h : History σ}

/-- What is read at the height of a block of the chain is a block of the chain, the last one with the hash,
whether the digests differ or not. -/
theorem exists_reader_block (hf : h.Faithful) (hbuilt : ∀ e ∈ h.chain, e.Built) {height : UInt64} {e : Extension}
    (he : h.chain[height.toNat]? = some e) :
    ∃ last ∈ h.chain, (Reader.ofStore h.ledger.store).block height = .ok (some last.block) := by
  obtain ⟨last, hmem, hlast, -⟩ := exists_lastNamed? (List.mem_of_getElem? he)
  refine ⟨last, hmem, ?_⟩
  change Reader.decoded Block.decode (Reader.found (Store.blockAt h.ledger.store height)) = _
  rw [Store.blockAt, hf.blockHash, he]
  change Reader.decoded _ (Reader.found (Store.block h.ledger.store e.block.hash)) = _
  rw [hf.answers.block, Holdings.blocks_ofChain, hlast]
  change ((Block.decode last.block.encode).mapError ReadError.codec).map some = _
  rw [(hbuilt last hmem).decode_block]
  rfl

/-- What is found for an output is the first transaction with the key in the block that is read at its
height. -/
theorem exists_first (hf : h.Faithful) (hbuilt : ∀ e ∈ h.chain, e.Built) {policy : OwnerPolicy} {id : OutputId}
    {location : OutputLocation} {e : Extension} (he : e ∈ h.chain)
    (hlocation : (Reader.ofStore h.ledger.store).output id = .ok (some location))
    (hblock : (Reader.ofStore h.ledger.store).block location.height = .ok (some e.block)) {owner : TxHash}
    (howner : (Trace.findOwner (Reader.ofStore h.ledger.store) policy id).result = .ok owner) :
    ∃ t, (e.confirmed.find? fun t => t.owns location.key) = some t ∧ t.hash = owner := by
  obtain ⟨i, hi⟩ := List.getElem?_of_mem he
  have hfetched := (hf.forall₂_listed_iff hbuilt hi).mpr rfl
  have hfirst := Trace.result_findOwner_firstMatch howner
  rw [Trace.result_findOwner_of_located hlocation hblock, Trace.result_ownerIn_firstMatch hfetched] at hfirst
  rw [← Extension.confirmed, Trace.ownersAmong, List.head?_map, List.head?_filter] at hfirst
  cases ht : e.confirmed.find? fun t => t.owns location.key with
  | none =>
    rw [ht] at hfirst
    cases hfirst
  | some t =>
    rw [ht] at hfirst
    exact ⟨t, rfl, Except.ok.inj hfirst⟩

/-- What is found for an output is confirmed in its block and has its key. -/
theorem exists_keyOwner (hf : h.Faithful) (hbuilt : ∀ e ∈ h.chain, e.Built) {policy : OwnerPolicy}
    {id : OutputId} {owner : TxHash}
    (howner : (Trace.findOwner (Reader.ofStore h.ledger.store) policy id).result = .ok owner) :
    ∃ location t, t.hash = owner ∧ Trace.KeyOwner (Reader.ofStore h.ledger.store) id location t := by
  obtain ⟨location, -, hlocation, -⟩ := Trace.exists_located howner
  have hcreated := hlocation
  rw [hf.reader_output, Except.ok.injEq] at hcreated
  obtain ⟨i, e, he, hheight, -⟩ := exists_creator hcreated
  have hplace : h.chain[location.height.toNat]? = some e := by
    rw [hheight, hf.valid.toNat_height he, he]
  -- As digests may coincide, the block that is read need not be the one that created the output.
  obtain ⟨last, hlast, hblock⟩ := hf.exists_reader_block hbuilt hplace
  obtain ⟨t, ht, rfl⟩ := hf.exists_first hbuilt hlast hlocation hblock howner
  have hconfirmed := List.mem_of_find?_eq_some ht
  refine ⟨location, t, rfl, hlocation, ⟨last.block, hblock, ?_⟩, ?_, by simpa using List.find?_some ht⟩
  · rw [← hf.valid.map_hash_confirmed hlast]
    exact List.mem_map_of_mem hconfirmed
  · exact hf.reader_transaction hbuilt (List.mem_flatMap.mpr ⟨last, hlast, hconfirmed⟩)

/-- What is found for an output is the first transaction with its key in the block that created the output, and
has the output if two owners are rejected. -/
theorem exists_findsFirst (hf : h.Faithful) (hbuilt : ∀ e ∈ h.chain, e.Built) (hdigests : DigestsDiffer h.chain)
    {policy : OwnerPolicy} {id : OutputId} {location : OutputLocation} {t : Transaction}
    (hkey : Trace.KeyOwner (Reader.ofStore h.ledger.store) id location t)
    (howner : (Trace.findOwner (Reader.ofStore h.ledger.store) policy id).result = .ok t.hash) :
    ∃ e, h.chain[location.height.toNat]? = some e ∧
      (Reader.ofStore h.ledger.store).block location.height = .ok (some e.block) ∧
      e.FindsFirst policy ⟨id.amount, location.key⟩ t := by
  have hcreated := hkey.located
  rw [hf.reader_output, Except.ok.injEq, ← map_location_creations, List.getElem?_map,
    Option.map_eq_some_iff] at hcreated
  obtain ⟨c, hc, rfl⟩ := hcreated
  have hmem := List.mem_of_getElem? hc
  obtain ⟨hextension, hconfirmed, houtput⟩ := mem_creations hmem
  have hasked : (⟨id.amount, c.location.key⟩ : Output) = c.output := by
    rw [← amount_of_mem_creations hmem]
    rfl
  obtain ⟨i, hi⟩ := List.getElem?_of_mem hextension
  have hplace : h.chain[c.location.height.toNat]? = some c.extension := by
    rw [Creation.location, hf.valid.toNat_height hi, hi]
  have hblock : (Reader.ofStore h.ledger.store).block c.location.height = .ok (some c.extension.block) := by
    rw [hf.reader_block hbuilt hdigests, hplace]
    rfl
  obtain ⟨first, hfirst, hhash⟩ := hf.exists_first hbuilt hextension hkey.located hblock howner
  have hread := hf.reader_confirmed hbuilt hi (List.mem_of_find?_eq_some hfirst)
  rw [hhash, hkey.read] at hread
  obtain rfl : t = first := Option.some.inj (Except.ok.inj hread)
  refine ⟨c.extension, hplace, hblock, ?_⟩
  rw [hasked]
  refine ⟨hfirst, ?has, fun hstrict => ?strict⟩
  case has => exact (find?_eq_some_iff_of_imp (fun other => other.owns_of_has) hfirst).symm
  case strict =>
    subst hstrict
    obtain ⟨hsame, -⟩ := ((hf.foundBy hbuilt hdigests hc).only t.hash).mp howner
    obtain rfl : t = c.transaction :=
      (hf.valid.follows hi).eq_of_hash_eq hconfirmed (List.mem_of_find?_eq_some hfirst) hsame
    exact List.any_eq_true.mpr ⟨_, houtput, decide_eq_true rfl⟩

end History.Faithful

/-- After every run from an empty store, what is found for an output is a transaction that the block at its
height confirms and that has its key, whatever the policy is. If the digests of different blocks that the run
took differ, then it is the first one with the key in the block that created the output. It has an output with
the amount and the key if two owners are rejected, and otherwise exactly if it is also the first one that has.
The blocks and transactions that were appended were put together. -/
theorem keyOwner_run (checkpoints : Checkpoints) (calls : List LedgerCall)
    (hbuilt : ∀ e, .append e ∈ calls → e.Built) :
    InEveryRun checkpoints calls fun h =>
      ∀ (policy : OwnerPolicy) (id : OutputId) (owner : TxHash),
        (Trace.findOwner (Reader.ofStore h.ledger.store) policy id).result = .ok owner →
          ∃ location t, t.hash = owner ∧ Trace.KeyOwner (Reader.ofStore h.ledger.store) id location t ∧
            (DigestsDiffer h.chain → ∃ e, h.chain[location.height.toNat]? = some e ∧
              (Reader.ofStore h.ledger.store).block location.height = .ok (some e.block) ∧
              e.FindsFirst policy ⟨id.amount, location.key⟩ t) := by
  apply inEveryRun_of_faithful
  intro σ _ _ h hf happended _ policy id owner howner
  have hchain (e : Extension) (he : e ∈ h.chain) : e.Built := hbuilt e (happended e he)
  obtain ⟨location, t, rfl, hkey⟩ := hf.exists_keyOwner hchain howner
  exact ⟨location, t, rfl, hkey, fun hdigests => hf.exists_findsFirst hchain hdigests hkey howner⟩

/-- The transaction that is found for the output of the second of two transactions has this output. -/
theorem keyOwner_unfounded :
    (∀ e, .append e ∈ [LedgerCall.append lower, .append unfounded] → e.Built) ∧
      DigestsDiffer unfoundedHistory.chain ∧
      (Trace.findOwner (Reader.ofStore unfoundedHistory.ledger.store) .rejectAmbiguous ⟨9, 0⟩).result =
        .ok circular.hash ∧
      ∃ location t, t.hash = circular.hash ∧
        Trace.KeyOwner (Reader.ofStore unfoundedHistory.ledger.store) ⟨9, 0⟩ location t ∧
        t.has ⟨9, location.key⟩ = true := by
  -- The three facts are decided at once, so that the run is evaluated only once.
  obtain ⟨hchain, hnodup, howner⟩ : unfoundedHistory.chain = [lower, unfounded] ∧
      ([lower, unfounded].map fun e => Blake2b.digest e.block.encode).Nodup ∧
      (Trace.findOwner (Reader.ofStore unfoundedHistory.ledger.store) .rejectAmbiguous ⟨9, 0⟩).result =
        .ok circular.hash := by decide +kernel
  have hdigests : DigestsDiffer unfoundedHistory.chain := hchain ▸ .of_nodup hnodup
  have hrun := (keyOwner_run {} [.append lower, .append unfounded] fun e => built_unfounded).memory ∅ false
  rw [← unfoundedHistory] at hrun
  obtain ⟨location, t, hhash, hkey, hfirst⟩ := hrun .rejectAmbiguous ⟨9, 0⟩ _ howner
  obtain ⟨e, -, -, hfinds⟩ := hfirst hdigests
  exact ⟨fun e => built_unfounded, hdigests, howner, location, t, hhash, hkey, hfinds.strict rfl⟩

/-- A transaction whose output has the key of the reward of its block, and another amount. -/
def shadowed : Transaction := .new 0 [.keyed 5 [0] .zero] [⟨9, .zero⟩] []

/-- A second block, which confirms it. -/
def shadowing : Extension := ⟨blockOf 1 lower.block.hash [shadowed.hash], [shadowed]⟩

/-- The blocks and the transaction were put together. -/
theorem built_shadowing {e : Extension} (he : .append e ∈ [LedgerCall.append lower, .append shadowing]) :
    e.Built := by
  have hcase : e = lower ∨ e = shadowing := by simpa using he
  obtain rfl | rfl := hcase
  · exact built_blockOf _ _ [] (by decide) (List.forall_mem_nil _) (List.forall_mem_nil _)
  · exact built_blockOf _ _ [shadowed] (by decide) (List.forall_mem_singleton.mpr (.new _ _ _ _))
      (List.forall_mem_singleton.mpr (fits_keyed 5 .zero (by decide) (by decide)))

/-- The history of a store in memory that takes both blocks. -/
def shadowedHistory : History Memory :=
  Ledger.run { store := {} } [.append lower, .append shadowing]

/-- The first transaction with the key of an output need not have the output: the only output of its amount is
led to the reward, which has none. -/
theorem not_asked_shadowed :
    let r := Reader.ofStore shadowedHistory.ledger.store
    (∀ e, .append e ∈ [LedgerCall.append lower, .append shadowing] → e.Built) ∧
      DigestsDiffer shadowedHistory.chain ∧
      Store.outputCount shadowedHistory.ledger.store 9 = .ok 1 ∧
      (Trace.findOwner r .firstMatch ⟨9, 0⟩).result = .ok shadowing.block.rewardTx.hash ∧
      r.transaction shadowing.block.rewardTx.hash = .ok (some shadowing.block.rewardTx) ∧
      ∀ key, shadowing.block.rewardTx.has ⟨9, key⟩ = false := by
  intro r
  obtain ⟨hchain, hnodup, hcount, howner, hread⟩ : shadowedHistory.chain = [lower, shadowing] ∧
      ([lower, shadowing].map fun e => Blake2b.digest e.block.encode).Nodup ∧
      Store.outputCount shadowedHistory.ledger.store 9 = .ok 1 ∧
      (Trace.findOwner r .firstMatch ⟨9, 0⟩).result = .ok shadowing.block.rewardTx.hash ∧
      r.transaction shadowing.block.rewardTx.hash = .ok (some shadowing.block.rewardTx) := by decide +kernel
  refine ⟨fun e => built_shadowing, hchain ▸ .of_nodup hnodup, hcount, howner, hread, fun key => ?_⟩
  change ([⟨5, .zero⟩] : List Output).any (· = ⟨9, key⟩) = false
  simp

end RingDepth
