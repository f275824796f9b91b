import RingDepth.Proofs.Ledger.Intact
import RingDepth.Proofs.Trace.Ownership

/-!
# Who created an output

The index of outputs keeps no transaction, only the height and the key of an output, and the owner is searched
for by the key. The transaction that created the output is among those that have the key, so a search that
looks at all of them finds this one, or fails because there are others. A search that ends at the first one
finds it if there are no others.
-/

namespace RingDepth

/-- An output with the transaction that created it and the block that confirms the transaction. -/
structure Creation where
  extension : Extension
  transaction : Transaction
  output : Output

/-- The outputs of an amount in the order in which a chain created them: block after block, in a block the
reward before the listed transactions, and in a transaction by position. -/
def creations (chain : List Extension) (amount : UInt64) : List Creation :=
  chain.flatMap fun e => e.confirmed.flatMap fun t =>
    (t.outputs.filter fun output => output.amount = amount).map fun output => ⟨e, t, output⟩

namespace Creation

/-- Where the output is found. -/
def location (c : Creation) : OutputLocation where
  height := c.extension.block.height
  key := c.output.key

/-- Whether no other transaction of the block has an output with the key. -/
def Alone (c : Creation) : Prop :=
  ∀ t ∈ c.extension.confirmed, t.owns c.output.key = true → t = c.transaction

/-- Whether lookups lead from the number of an output back to the transaction that created it. If two owners
are rejected, then no other one is found, and this one is if it is alone. If it is alone, then it is the
first. -/
structure FoundBy (c : Creation) (r : Reader) (id : OutputId) : Prop where
  output : r.output id = .ok (some c.location)
  transaction : r.transaction c.transaction.hash = .ok (some c.transaction)
  only : ∀ owner, (Trace.findOwner r .rejectAmbiguous id).result = .ok owner ↔
    owner = c.transaction.hash ∧ c.Alone
  first : c.Alone → (Trace.findOwner r .firstMatch id).result = .ok c.transaction.hash

end Creation

/-- The outputs are found where the chain created them. -/
theorem map_location_creations (chain : List Extension) (amount : UInt64) :
    (creations chain amount).map Creation.location = createdBy chain amount := by
  simp only [creations, createdBy, Transaction.created, List.map_flatMap, List.map_map]
  rfl

/-- Each output was created by a transaction that a block of the chain confirms. -/
theorem mem_creations {chain : List Extension} {amount : UInt64} {c : Creation}
    (h : c ∈ creations chain amount) :
    c.extension ∈ chain ∧ c.transaction ∈ c.extension.confirmed ∧ c.output ∈ c.transaction.outputs := by
  obtain ⟨e, he, hconfirmed⟩ := List.mem_flatMap.mp h
  obtain ⟨t, ht, hcreated⟩ := List.mem_flatMap.mp hconfirmed
  obtain ⟨output, houtput, rfl⟩ := List.mem_map.mp hcreated
  exact ⟨he, ht, List.mem_of_mem_filter houtput⟩

/-- Transactions of one block that have one hash are the same. -/
theorem Extension.Follows.eq_of_hash_eq {checkpoints : Checkpoints} {chain : List Extension} {e : Extension}
    (h : e.Follows checkpoints chain) {t other : Transaction} (ht : t ∈ e.confirmed)
    (hother : other ∈ e.confirmed) (hsame : other.hash = t.hash) : other = t :=
  List.inj_on_of_nodup_map h.distinct hother ht hsame

namespace History.Faithful

variable {σ : Type} [Store σ] [Store.Lawful σ] {h : History σ}

/-- The transactions that are fetched for the list of a block are those that were supplied with it. -/
theorem forall₂_listed_iff (hf : h.Faithful) (hbuilt : ∀ e ∈ h.chain, e.Built) {i : ℕ} {e : Extension}
    (he : h.chain[i]? = some e) {ts : List Transaction} :
    List.Forall₂ (fun hash t => (Reader.ofStore h.ledger.store).transaction hash = .ok (some t))
      e.block.txHashes ts ↔ ts = e.transactions := by
  rw [← (hf.valid.follows he).listed, List.forall₂_map_left_iff]
  have hread (t : Transaction) (ht : t ∈ e.transactions) :
      (Reader.ofStore h.ledger.store).transaction t.hash = .ok (some t) :=
    hf.reader_confirmed hbuilt he (List.mem_cons_of_mem _ ht)
  constructor
  · intro hts
    have hsame : List.Forall₂ (· = ·) e.transactions ts := by
      refine (List.forall₂_iff_zip.mpr ⟨hts.length_eq, fun {t other} hzip => ?_⟩)
      have hfound := (List.forall₂_iff_zip.mp hts).2 hzip
      rw [hread t (List.of_mem_zip hzip).1] at hfound
      exact Option.some.inj (Except.ok.inj hfound)
    rw [List.forall₂_eq_eq_eq] at hsame
    exact hsame.symm
  · rintro rfl
    exact List.forall₂_same.mpr hread

/-- The owner that is found created the output with the number. -/
theorem foundBy (hf : h.Faithful) (hbuilt : ∀ e ∈ h.chain, e.Built) (hdigests : DigestsDiffer h.chain)
    {id : OutputId} {c : Creation} (hc : (creations h.chain id.amount)[id.index.toNat]? = some c) :
    c.FoundBy (Reader.ofStore h.ledger.store) id := by
  obtain ⟨hextension, hconfirmed, houtput⟩ := mem_creations (List.mem_of_getElem? hc)
  obtain ⟨i, hi⟩ := List.getElem?_of_mem hextension
  have hfollows := hf.valid.follows hi
  have hlocation : (createdBy h.chain id.amount)[id.index.toNat]? = some c.location := by
    rw [← map_location_creations, List.getElem?_map, hc]
    rfl
  have hplace : h.chain[c.location.height.toNat]? = some c.extension := by
    rw [Creation.location, hf.valid.toNat_height hi, hi]
  have howns : c.transaction.owns c.output.key = true :=
    List.any_eq_true.mpr ⟨_, houtput, decide_eq_true rfl⟩
  refine ⟨?output, hf.reader_confirmed hbuilt hi hconfirmed, fun owner => ?only, fun halone => ?first⟩
  case output => rw [hf.reader_output, hlocation]
  case only =>
    rw [hf.result_findOwner_eq_ok_iff hbuilt hdigests hlocation hplace, Trace.result_ownerIn_eq_ok_iff]
    simp only [hf.forall₂_listed_iff hbuilt hi, exists_eq_left, Option.some.injEq]
    change (∀ hash, (∃ t ∈ c.extension.confirmed, t.owns c.output.key = true ∧ t.hash = hash) ↔
      owner = hash) ↔ _
    constructor
    · intro honly
      obtain rfl := (honly c.transaction.hash).mp ⟨_, hconfirmed, howns, rfl⟩
      refine ⟨rfl, fun t ht hkey => hfollows.eq_of_hash_eq hconfirmed ht ?_⟩
      exact ((honly t.hash).mp ⟨t, ht, hkey, rfl⟩).symm
    · rintro ⟨rfl, halone⟩ hash
      constructor
      · rintro ⟨t, ht, hkey, rfl⟩
        rw [halone t ht hkey]
      · rintro rfl
        exact ⟨_, hconfirmed, howns, rfl⟩
  case first =>
    obtain ⟨t, ht⟩ := Option.isSome_iff_exists.mp
      (List.find?_isSome (p := fun t => t.owns c.output.key).mpr ⟨_, hconfirmed, howns⟩)
    obtain rfl : t = c.transaction := halone t (List.mem_of_find?_eq_some ht) (by simpa using List.find?_some ht)
    exact hf.result_findOwner hbuilt hdigests hlocation hplace ht

end History.Faithful

/-- After every run from an empty store, every number below the count of its amount is that of an output which
some transaction created, and the owner that is found is this transaction: whenever one is found, if two are
rejected, and if no other transaction of the block has the key, in any case. The blocks and transactions that
were appended were put together, and the digests of different blocks that the run took differ. -/
theorem attributed_run (checkpoints : Checkpoints) (calls : List LedgerCall)
    (hbuilt : ∀ e, .append e ∈ calls → e.Built) :
    InEveryRun checkpoints calls fun h =>
      DigestsDiffer h.chain →
        ∀ (id : OutputId) (count : UInt64), Store.outputCount h.ledger.store id.amount = .ok count →
          id.index < count →
            ∃ c, (creations h.chain id.amount)[id.index.toNat]? = some c ∧
              c.FoundBy (Reader.ofStore h.ledger.store) id := by
  apply inEveryRun_of_faithful
  intro σ _ _ h hf happended _ hdigests id count hcount hbelow
  have hchain (e : Extension) (he : e ∈ h.chain) : e.Built := hbuilt e (happended e he)
  obtain ⟨n, hn, hlength⟩ := hf.numbered.count id.amount
  obtain rfl : n = count := Except.ok.inj (hn.symm.trans hcount)
  rw [← map_location_creations, List.length_map] at hlength
  have hlt : id.index.toNat < (creations h.chain id.amount).length :=
    hlength ▸ UInt64.lt_iff_toNat_lt.mp hbelow
  have hc := List.getElem?_eq_getElem hlt
  exact ⟨_, hc, hf.foundBy hchain hdigests hc⟩

/-- The output of the second of two transactions is led back to it. -/
theorem attributed_unfounded :
    DigestsDiffer unfoundedHistory.chain ∧
      Store.outputCount unfoundedHistory.ledger.store 9 = .ok 1 ∧
      (Trace.findOwner (Reader.ofStore unfoundedHistory.ledger.store) .rejectAmbiguous ⟨9, 0⟩).result =
        .ok circular.hash ∧
      ∃ c, (creations unfoundedHistory.chain 9)[0]? = some c ∧ c.transaction = circular ∧ c.Alone ∧
        c.FoundBy (Reader.ofStore unfoundedHistory.ledger.store) ⟨9, 0⟩ := by
  have hchain : unfoundedHistory.chain = [lower, unfounded] := by decide +kernel
  have hdigests : DigestsDiffer unfoundedHistory.chain := by
    rw [hchain]
    exact .of_nodup (by decide +kernel)
  have hcount : Store.outputCount unfoundedHistory.ledger.store 9 = .ok 1 := by decide +kernel
  have howner : (Trace.findOwner (Reader.ofStore unfoundedHistory.ledger.store) .rejectAmbiguous
      ⟨9, 0⟩).result = .ok circular.hash := by decide +kernel
  have hrun := (attributed_run {} [.append lower, .append unfounded] fun e => built_unfounded).memory ∅ false
  rw [← unfoundedHistory] at hrun
  obtain ⟨c, hc, hfound⟩ := hrun hdigests ⟨9, 0⟩ 1 hcount (by decide)
  refine ⟨hdigests, hcount, howner, c, hc, ?_, ((hfound.only _).mp howner).2, hfound⟩
  have hcreated : (creations [lower, unfounded] 9).map Creation.transaction = [circular] := by decide +kernel
  rw [← hchain] at hcreated
  have hfirst := congrArg (·[0]?) hcreated
  simpa [List.getElem?_map, show (creations unfoundedHistory.chain 9)[0]? = some c from hc] using hfirst

end RingDepth
