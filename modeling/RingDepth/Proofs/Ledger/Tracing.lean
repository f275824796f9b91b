import RingDepth.Proofs.Ledger.Confirmation
import RingDepth.Proofs.Ledger.Owner
import RingDepth.Proofs.Trace.Grading

/-!
# Traces in a ledger

A ring that names only outputs which were there before its block has all its owners in lower blocks. If
all rings of a ledger do so, the heights of the blocks grade the confirmed transactions, and each of them
is traced to a reward in at most as many steps as its height.

That an append refuses listed transactions which mint or spend nothing is needed here: the first input of
each of them leads somewhere, and only rewards are at depth zero.
-/

namespace RingDepth

/-- Whether an input names some output and only outputs with numbers below the counts of their amounts. -/
def Input.SpendsBelow (count : UInt64 → ℕ) : Input → Prop
  | .terminal _ => True
  | .keyed amount keyOffsets _ => keyOffsets ≠ [] ∧ ∃ ring, Offsets.toAbsolute keyOffsets = .ok ring ∧
    ∀ index ∈ ring, index.toNat < count amount

/-- All inputs of a chain spend outputs that the blocks before theirs created. -/
def RingsBelow (chain : List Extension) : Prop :=
  ∀ (i : ℕ) (e : Extension), chain[i]? = some e → ∀ t ∈ e.confirmed, ∀ input ∈ t.inputs,
    input.SpendsBelow fun amount => (createdBy (chain.take i) amount).length

/-- Whether the block of a chain at a position confirms a hash. -/
def ConfirmedAt (chain : List Extension) (hash : TxHash) (i : ℕ) : Prop :=
  ∃ e, chain[i]? = some e ∧ ∃ t ∈ e.confirmed, t.hash = hash

namespace Input.SpendsBelow

variable {count : UInt64 → ℕ} {input : Input}

/-- The ring of the input reads. -/
theorem absoluteOffsets (h : input.SpendsBelow count) : ∃ ring, input.absoluteOffsets = .ok ring := by
  cases input with
  | terminal height => exact ⟨[], rfl⟩
  | keyed amount keyOffsets keyImage =>
    obtain ⟨-, ring, hring, -⟩ := h
    exact ⟨ring, hring⟩

/-- Each output that the input names is below the count of its amount. -/
theorem lt_of_names (h : input.SpendsBelow count) {id : OutputId} (hid : input.Names id) :
    id.index.toNat < count id.amount := by
  cases input with
  | terminal height => exact hid.elim
  | keyed amount keyOffsets keyImage =>
    obtain ⟨-, ring, hring, hbelow⟩ := h
    obtain ⟨rfl, other, hother, hindex⟩ := hid
    obtain rfl : ring = other := Except.ok.inj (hring.symm.trans hother)
    exact hbelow id.index hindex

/-- An input that does not mint names some output, as the first index of a ring is always read. -/
theorem exists_names (h : input.SpendsBelow count) (hkeyed : input.isTerminal = false) :
    ∃ id, input.Names id := by
  cases input with
  | terminal height => cases hkeyed
  | keyed amount keyOffsets keyImage =>
    obtain ⟨hne, ring, hring, -⟩ := h
    obtain ⟨first, rest, rfl⟩ := List.exists_cons_of_ne_nil hne
    refine ⟨⟨amount, first⟩, rfl, ring, hring, ?_⟩
    obtain ⟨indices, -, rfl⟩ := map_eq_ok_iff.mp hring
    exact List.mem_cons_self

end Input.SpendsBelow

/-- The inputs that a trace looks at are inputs of the transaction. -/
theorem Transaction.mem_inputs_of_mem_tracedInputs {t : Transaction} {input : Input}
    (h : input ∈ t.tracedInputs) : input ∈ t.inputs :=
  List.takeWhile_subset _ h

namespace History.Faithful

variable {σ : Type} [Store σ] [Store.Lawful σ] {h : History σ}

/-- The outputs that the first blocks created have owners in these. -/
theorem exists_owner (hf : h.Faithful) (hbuilt : ∀ e ∈ h.chain, e.Built)
    (hdigests : DigestsDiffer h.chain) {i : ℕ} {id : OutputId}
    (hid : id.index.toNat < (createdBy (h.chain.take i) id.amount).length) :
    ∃ owner, (Trace.findOwner (Reader.ofStore h.ledger.store) .firstMatch id).result = .ok owner ∧
      ∃ j < i, ConfirmedAt h.chain owner j := by
  obtain ⟨location, hcreated⟩ : ∃ location,
      (createdBy (h.chain.take i) id.amount)[id.index.toNat]? = some location :=
    ⟨_, List.getElem?_eq_getElem hid⟩
  obtain ⟨j, e, hj, hheight, t, ht, houtput⟩ := exists_creator hcreated
  obtain ⟨hlt, he⟩ : j < i ∧ h.chain[j]? = some e := by
    rw [List.getElem?_take] at hj
    split at hj
    · exact ⟨‹_›, hj⟩
    · cases hj
  -- Some transaction of the block has the key: the one that created the output.
  have howns : t.owns location.key = true :=
    List.any_eq_true.mpr ⟨_, houtput, decide_eq_true rfl⟩
  have hfound : (e.confirmed.find? fun t => t.owns location.key).isSome = true :=
    List.find?_isSome.mpr ⟨t, ht, howns⟩
  obtain ⟨owner, howner⟩ := Option.isSome_iff_exists.mp hfound
  have hblock : h.chain[e.block.height.toNat]? = some e := by rw [hf.valid.toNat_height he, he]
  refine ⟨owner.hash, hf.result_findOwner hbuilt hdigests ?_ (hheight ▸ hblock) howner, j, hlt, e, he,
    owner, List.mem_of_find?_eq_some howner, rfl⟩
  rw [getElem?_createdBy_take hid, hcreated]

/-- So has each output that an input in a block names, if its ring is below the block. -/
theorem exists_owner_of_names (hf : h.Faithful) (hbuilt : ∀ e ∈ h.chain, e.Built)
    (hdigests : DigestsDiffer h.chain) (hrings : RingsBelow h.chain) {i : ℕ} {e : Extension}
    (he : h.chain[i]? = some e) {t : Transaction} (ht : t ∈ e.confirmed) {input : Input}
    (hinput : input ∈ t.inputs) {id : OutputId} (hid : input.Names id) :
    ∃ owner, (Trace.findOwner (Reader.ofStore h.ledger.store) .firstMatch id).result = .ok owner ∧
      ∃ j < i, ConfirmedAt h.chain owner j :=
  hf.exists_owner hbuilt hdigests ((hrings i e he t ht input hinput).lt_of_names hid)

/-- The transaction that is read under a confirmed hash is the confirmed one. -/
theorem eq_of_reader_transaction (hf : h.Faithful) (hbuilt : ∀ e ∈ h.chain, e.Built) {i : ℕ}
    {e : Extension} (he : h.chain[i]? = some e) {t other : Transaction} (ht : t ∈ e.confirmed)
    (hother : (Reader.ofStore h.ledger.store).transaction t.hash = .ok (some other)) : other = t := by
  rw [hf.reader_confirmed hbuilt he ht] at hother
  exact (Option.some.inj (Except.ok.inj hother)).symm

/-- Of the transactions that a block confirms, its reward mints and the listed ones do not. -/
theorem mints_iff (hf : h.Faithful) (hbuilt : ∀ e ∈ h.chain, e.Built) {i : ℕ} {e : Extension}
    (he : h.chain[i]? = some e) {t : Transaction} (ht : t ∈ e.confirmed) :
    Trace.Mints (Reader.ofStore h.ledger.store) t.hash ↔ t = e.block.rewardTx := by
  have hinputs := (hbuilt e (List.mem_of_getElem? he)).block.namedByEncoding.2.inputs
  refine ⟨fun hmints => ?_, fun hreward => ?_⟩
  · obtain ⟨other, hother, hmint⟩ := hmints
    obtain rfl := hf.eq_of_reader_transaction hbuilt he ht hother
    obtain hreward | hlisted := List.mem_cons.mp ht
    · exact hreward
    · obtain ⟨input, hinput, hterminal⟩ := List.any_eq_true.mp hmint
      have hkeyed := ((hf.valid.follows he).spends other hlisted).2 input hinput
      exact absurd hterminal (hkeyed ▸ Bool.false_ne_true)
  · subst hreward
    refine ⟨_, hf.reader_confirmed hbuilt he ht, ?_⟩
    rw [Transaction.mints, hinputs]
    rfl

/-- The heights of its blocks grade the transactions that a ledger confirms, if each of its rings is
below its block. -/
theorem graded (hf : h.Faithful) (hbuilt : ∀ e ∈ h.chain, e.Built) (hdigests : DigestsDiffer h.chain)
    (hrings : RingsBelow h.chain) :
    Trace.Graded (Reader.ofStore h.ledger.store) .firstMatch (ConfirmedAt h.chain) := by
  have hexpandable (hash : TxHash) (i : ℕ) (hgrade : ConfirmedAt h.chain hash i) :
      Trace.Expandable (Reader.ofStore h.ledger.store) .firstMatch hash := by
    obtain ⟨e, he, t, ht, rfl⟩ := hgrade
    refine ⟨t, hf.reader_confirmed hbuilt he ht, fun input htraced => ?_⟩
    have hinput := Transaction.mem_inputs_of_mem_tracedInputs htraced
    refine ⟨(hrings i e he t ht input hinput).absoluteOffsets, fun id hid => ?_⟩
    obtain ⟨owner, howner, -⟩ := hf.exists_owner_of_names hbuilt hdigests hrings he ht hinput hid
    exact ⟨owner, howner⟩
  refine ⟨hexpandable, ?leads, ?lower⟩
  case leads =>
    intro hash i hgrade hmints
    have hexpand := hexpandable hash i hgrade
    obtain ⟨e, he, t, ht, rfl⟩ := hgrade
    obtain hreward | hlisted := List.mem_cons.mp ht
    · exact absurd ((hf.mints_iff hbuilt he ht).mpr hreward) hmints
    · obtain ⟨hspends, hkeyed⟩ := (hf.valid.follows he).spends t hlisted
      obtain ⟨input, rest, hinputs⟩ := List.exists_cons_of_ne_nil hspends
      have hinput : input ∈ t.inputs := hinputs ▸ List.mem_cons_self
      have htraced : input ∈ t.tracedInputs := by
        rw [Transaction.tracedInputs, hinputs, List.takeWhile_cons_of_pos (by simp [hkeyed input hinput])]
        exact List.mem_cons_self
      obtain ⟨id, hid⟩ := (hrings i e he t ht input hinput).exists_names (hkeyed input hinput)
      obtain ⟨owner, howner, -⟩ := hf.exists_owner_of_names hbuilt hdigests hrings he ht hinput hid
      exact ⟨owner, hexpand, t, hf.reader_confirmed hbuilt he ht, input, htraced, id, hid, howner⟩
  case lower =>
    intro hash i owner hgrade hedge
    obtain ⟨e, he, t, ht, rfl⟩ := hgrade
    obtain ⟨-, other, hother, input, htraced, id, hid, howner⟩ := hedge
    obtain rfl := hf.eq_of_reader_transaction hbuilt he ht hother
    obtain ⟨found, hfound, hlower⟩ := hf.exists_owner_of_names hbuilt hdigests hrings he ht
      (Transaction.mem_inputs_of_mem_tracedInputs htraced) hid
    obtain rfl : found = owner := Except.ok.inj (hfound.symm.trans howner)
    exact hlower

/-- A transaction that a ledger confirms is traced to a reward in at most as many steps as its height,
and in none exactly if it is a reward. -/
theorem exists_trace_eq_ok (hf : h.Faithful) (hbuilt : ∀ e ∈ h.chain, e.Built)
    (hdigests : DigestsDiffer h.chain) (hrings : RingsBelow h.chain) {c : TraceConfig}
    (hpolicy : c.ownerPolicy = .firstMatch) (hlimit : c.maxDepth = none) {place : TxPlace} {hash : TxHash}
    (hplace : place.Confirms (Reader.ofStore h.ledger.store) hash) :
    ∃ outcome, trace (Reader.ofStore h.ledger.store) c hash = .ok outcome ∧
      outcome.depth ≤ place.height.toNat ∧ (outcome.depth = 0 ↔ ∃ height, place = .reward height) := by
  obtain ⟨e, he, hindex⟩ := (hf.confirms_iff hbuilt hdigests).mp hplace
  rw [← hf.valid.map_hash_confirmed (List.mem_of_getElem? he), List.getElem?_map] at hindex
  obtain ⟨t, ht, rfl⟩ := Option.map_eq_some_iff.mp hindex
  have hmem : t ∈ e.confirmed := List.mem_of_getElem? ht
  have hgrade : ConfirmedAt h.chain t.hash place.height.toNat := ⟨e, he, t, hmem, rfl⟩
  obtain ⟨depth, hdepth, hnearest⟩ := (hf.graded hbuilt hdigests hrings).exists_nearestMint hgrade
  obtain ⟨work, htrace⟩ := Trace.NearestMint.exists_trace_eq_ok hlimit (hpolicy ▸ hnearest)
  refine ⟨_, htrace, hdepth, ?_⟩
  rw [hnearest.eq_zero_iff, hf.mints_iff hbuilt he hmem]
  cases place with
  | reward height =>
    refine ⟨fun _ => ⟨height, rfl⟩, fun _ => ?_⟩
    exact (Option.some.inj ht).symm
  | listed height position =>
    refine ⟨fun hreward => ?_, fun hplace => ?_⟩
    · -- The reward stands before the list, and no hash is confirmed twice.
      have hnodup := (hf.valid.follows he).distinct
      rw [Extension.confirmed, List.map_cons, List.nodup_cons] at hnodup
      have hlisted : t ∈ e.transactions := List.mem_of_getElem? ht
      exact absurd (List.mem_map_of_mem hlisted) (hreward ▸ hnodup.1)
    · obtain ⟨_, hplace⟩ := hplace
      cases hplace

end History.Faithful

/-- After every run from an empty store each confirmed transaction is traced, within the height at which
it is confirmed, and only rewards are at depth zero, if the blocks and transactions that were appended
were put together, the digests of different blocks that the run took differ, and all rings name outputs
that were there before their blocks. -/
theorem traced_run (checkpoints : Checkpoints) (calls : List LedgerCall)
    (hbuilt : ∀ e, .append e ∈ calls → e.Built) :
    InEveryRun checkpoints calls fun h =>
      DigestsDiffer h.chain → RingsBelow h.chain →
        ∀ (c : TraceConfig) (place : TxPlace) (hash : TxHash),
          c.ownerPolicy = .firstMatch → c.maxDepth = none →
          place.Confirms (Reader.ofStore h.ledger.store) hash →
          ∃ outcome, trace (Reader.ofStore h.ledger.store) c hash = .ok outcome ∧
            outcome.depth ≤ place.height.toNat ∧
            (outcome.depth = 0 ↔ ∃ height, place = .reward height) := by
  apply inEveryRun_of_faithful
  intro σ _ _ h hf happended _ hdigests hrings c place hash hpolicy hlimit hplace
  have hchain (e : Extension) (he : e ∈ h.chain) : e.Built := hbuilt e (happended e he)
  exact hf.exists_trace_eq_ok hchain hdigests hrings hpolicy hlimit hplace

/-- The two blocks spend what was there before them. -/
theorem ringsBelow_twoBlocks : RingsBelow [lower, upper] := by
  have hreward (height : UInt64) (prevHash : BlockHash) (txHashes : List TxHash) (count : UInt64 → ℕ) :
      ∀ input ∈ (blockOf height prevHash txHashes).rewardTx.inputs, input.SpendsBelow count :=
    List.forall_mem_singleton.mpr trivial
  have hring : Input.SpendsBelow (fun amount => (createdBy [lower] amount).length)
      (.keyed 5 [0] .zero) :=
    ⟨List.cons_ne_nil _ _, [0], rfl, List.forall_mem_singleton.mpr (by decide)⟩
  intro i e he t ht
  rcases i with _ | _ | i
  · obtain rfl : lower = e := Option.some.inj he
    obtain rfl := List.mem_singleton.mp ht
    exact hreward 0 .zero [] _
  · obtain rfl : upper = e := Option.some.inj he
    obtain rfl | rfl := List.mem_pair.mp ht
    · exact hreward 1 lower.block.hash [spending.hash] _
    · exact List.forall_mem_singleton.mpr hring
  · cases he

/-- The transaction that the second of the two blocks confirms is traced within one step, and is no
reward. -/
theorem traced_twoBlocks :
    (∀ e, .append e ∈ twoBlocks → e.Built) ∧ DigestsDiffer [lower, upper] ∧
    RingsBelow [lower, upper] ∧
    ∃ outcome, trace (Reader.ofStore
        (Ledger.run { store := ({} : Memory), checkpoints := upperPinned } twoBlocks).ledger.store)
        {} spending.hash = .ok outcome ∧
      outcome.depth ≤ 1 ∧ (outcome.depth = 0 ↔ ∃ height, TxPlace.listed 1 0 = .reward height) := by
  have hplace : (TxPlace.listed 1 0).Confirms (Reader.ofStore
      (Ledger.run { store := ({} : Memory), checkpoints := upperPinned } twoBlocks).ledger.store)
      spending.hash := by
    refine ⟨upper.block, ?_, rfl⟩
    decide +kernel
  have hrun := (traced_run upperPinned twoBlocks fun e => built_twoBlocks).memory ∅ false
  rw [chain_twoBlocks] at hrun
  have htrace := hrun digestsDiffer_twoBlocks ringsBelow_twoBlocks {} (.listed 1 0) spending.hash rfl rfl
    hplace
  exact ⟨fun e => built_twoBlocks, digestsDiffer_twoBlocks, ringsBelow_twoBlocks, htrace⟩

end RingDepth
