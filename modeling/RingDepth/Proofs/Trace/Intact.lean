import RingDepth.Proofs.Trace.PlainSearch

/-!
# Traces in an intact graph

Lookups are intact if they find what they refer to: the transactions that are known are read under their
hashes, and an output leads to a block whose transactions are all known, one of them having its key. A
trace then never leaves the known transactions, whatever their rings name. So it fails only for a ring
that does not read, for an output that is not there, for two owners where these are rejected, or in the
search itself.
-/

namespace RingDepth

namespace Traced

variable {α β : Type} {P : TraceError → Prop} {Q : α → Prop} {R : β → Prop}

/-- Whether a part of a trace gives only some results and has only some failures. -/
structure Safe (P : TraceError → Prop) (Q : α → Prop) (x : Traced α) : Prop where
  fails : FailsOnly P x
  gives : ∀ a, x.result = .ok a → Q a

namespace Safe

/-- A part with a result has this one and no failure. -/
theorem of_result {x : Traced α} {a : α} (h : x.result = .ok a) (ha : Q a) : Safe P Q x where
  fails e he := by
    rw [h] at he
    cases he
  gives b hb := by
    obtain rfl : a = b := Except.ok.inj (h.symm.trans hb)
    exact ha

/-- A value is its own result. -/
theorem pure {a : α} (ha : Q a) : Safe P Q (Pure.pure a : Traced α) := of_result rfl ha

/-- What is raised is the failure. -/
theorem throw {e : TraceError} (he : P e) : Safe P Q (MonadExcept.throw e : Traced α) where
  fails := .throw he
  gives _ h := nomatch h

/-- The second of two parts is looked at only on what the first one gives. -/
theorem bind {x : Traced α} {f : α → Traced β} (hx : Safe P Q x) (hf : ∀ a, Q a → Safe P R (f a)) :
    Safe P R (x >>= f) where
  fails := hx.fails.bind_of_result fun a ha => (hf a (hx.gives a ha)).fails
  gives b h := by
    obtain ⟨a, ha, hb⟩ := result_bind_eq_ok.mp h
    exact (hf a (hx.gives a ha)).gives b hb

end Safe

end Traced

namespace Trace

/-- Lookups are intact for some known transactions if they find what they refer to: known transactions under
their hashes, and for an output a block that confirms known transactions only, one of which has its key. -/
structure Intact (r : Reader) (known : Transaction → Prop) : Prop where
  transaction : ∀ t, known t → r.transaction t.hash = .ok (some t)
  output : ∀ id, ∃ found, r.output id = .ok found
  block : ∀ id location, r.output id = .ok (some location) → ∃ b ts,
    r.block location.height = .ok (some b) ∧ ts.map Transaction.hash = b.txHashes ∧
      (∀ t ∈ b.rewardTx :: ts, known t) ∧ ∃ t ∈ b.rewardTx :: ts, t.owns location.key = true

/-- Whether a hash names a transaction which the block of an output confirms and which has its key. -/
def Owner (r : Reader) (location : OutputLocation) (hash : TxHash) : Prop :=
  ∃ b, r.block location.height = .ok (some b) ∧ hash ∈ b.rewardTx.hash :: b.txHashes ∧
    ∃ t, r.transaction hash = .ok (some t) ∧ t.owns location.key = true

end Trace

/-- Whether a failure is one that intact lookups leave to a trace, and what is behind it. -/
def TraceError.OfIntact (r : Reader) (c : TraceConfig) (start : TxHash) : TraceError → Prop
  | .missingOutput id => r.output id = .ok none
  | .malformedTransaction hash (.offsets e) => ∃ t, r.transaction hash = .ok (some t) ∧
      ∃ input ∈ t.tracedInputs, input.absoluteOffsets = .error e
  | .ambiguousOwner id height first second => c.ownerPolicy = .rejectAmbiguous ∧ first ≠ second ∧
      ∃ location, r.output id = .ok (some location) ∧ location.height = height ∧
        Trace.Owner r location first ∧ Trace.Owner r location second
  | .exhausted origin _ => origin = start
  | .depthLimit origin limit => origin = start ∧ c.maxDepth = some limit
  | _ => False

namespace Trace.Intact

open Traced (Safe)

variable {r : Reader} {c : TraceConfig} {start : TxHash} {known : Transaction → Prop}

/-- Locating an output gives its location, or tells that it is not there. -/
theorem safe_locate (h : Intact r known) (id : OutputId) :
    Safe (TraceError.OfIntact r c start) (fun location => r.output id = .ok (some location))
      (locate r id) := by
  obtain ⟨found, hfound⟩ := h.output id
  refine .bind (Q := fun _ => True) (.of_result rfl trivial) fun _ _ => ?_
  rw [hfound]
  cases found with
  | none => exact .throw hfound
  | some location => exact .pure rfl

/-- The transactions which the block of an output confirms and which have its key are its owners. -/
theorem owner_of_mem (h : Intact r known) {location : OutputLocation} {b : Block} {ts : List Transaction}
    (hb : r.block location.height = .ok (some b)) (hts : ts.map Transaction.hash = b.txHashes)
    (hknown : ∀ t ∈ b.rewardTx :: ts, known t) {t : Transaction} (ht : t ∈ b.rewardTx :: ts)
    (howns : t.owns location.key = true) : Owner r location t.hash := by
  refine ⟨b, hb, ?_, t, h.transaction t (hknown t ht), howns⟩
  rw [← hts, ← List.map_cons]
  exact List.mem_map_of_mem ht

/-- An owner is a known transaction. -/
theorem exists_known (h : Intact r known) {id : OutputId} {location : OutputLocation}
    (hlocation : r.output id = .ok (some location)) {hash : TxHash} (howner : Owner r location hash) :
    ∃ t, known t ∧ t.hash = hash := by
  obtain ⟨b, ts, hb, hts, hknown, -⟩ := h.block id location hlocation
  obtain ⟨b', hb', hmem, -⟩ := howner
  obtain rfl : b = b' := Option.some.inj (Except.ok.inj (hb.symm.trans hb'))
  rw [← hts, ← List.map_cons] at hmem
  obtain ⟨t, ht, rfl⟩ := List.mem_map.mp hmem
  exact ⟨t, hknown t ht, rfl⟩

/-- The first owner among known transactions is found if one of them has the key. -/
theorem safe_firstOwner (h : Intact r known) {location : OutputLocation} {ts : List Transaction}
    (hts : ∀ t ∈ ts, known t) (howner : ∀ t ∈ ts, t.owns location.key = true → Owner r location t.hash)
    (howns : ∃ t ∈ ts, t.owns location.key = true) :
    Safe (TraceError.OfIntact r c start) (fun found => ∃ owner ∈ found, Owner r location owner)
      (firstOwner r location.key (ts.map Transaction.hash)) := by
  rw [← List.find?_isSome] at howns
  obtain ⟨t, ht⟩ := Option.isSome_iff_exists.mp howns
  refine .of_result (result_firstOwner fun t ht => h.transaction t (hts t ht)) ?_
  have hkey : t.owns location.key = true := by simpa using List.find?_some ht
  rw [ht]
  exact ⟨t.hash, rfl, howner t (List.mem_of_find?_eq_some ht) hkey⟩

/-- The only owner among known transactions is found if one was found before or one of them has the key.
Two that differ are owners of the output both. -/
theorem safe_onlyOwner (h : Intact r known) (hpolicy : c.ownerPolicy = .rejectAmbiguous) {id : OutputId}
    {location : OutputLocation} (hlocation : r.output id = .ok (some location)) {ts : List Transaction}
    (hts : ∀ t ∈ ts, known t) (howner : ∀ t ∈ ts, t.owns location.key = true → Owner r location t.hash)
    {before : Option TxHash} (hbefore : ∀ hash ∈ before, Owner r location hash)
    (howns : before.isSome ∨ ∃ t ∈ ts, t.owns location.key = true) :
    Safe (TraceError.OfIntact r c start) (fun found => ∃ owner ∈ found, Owner r location owner)
      (onlyOwner r id location before (ts.map Transaction.hash)) := by
  induction ts generalizing before with
  | nil =>
    obtain hsome | ⟨t, ht, -⟩ := howns
    · obtain ⟨hash, rfl⟩ := Option.isSome_iff_exists.mp hsome
      exact .pure ⟨hash, rfl, hbefore hash rfl⟩
    · cases ht
  | cons t rest ih =>
    obtain ⟨ht, hrest⟩ := List.forall_mem_cons.mp hts
    obtain ⟨hfirst, hothers⟩ := List.forall_mem_cons.mp howner
    refine .bind (Q := (t = ·)) (.of_result (result_fetchTransaction (h.transaction t ht)) rfl) ?_
    rintro _ rfl
    cases hhas : t.owns location.key with
    | false =>
      rw [if_neg Bool.false_ne_true]
      exact ih hrest hothers hbefore (by simpa [hhas] using howns)
    | true =>
      rw [if_pos rfl]
      cases before with
      | none => exact ih hrest hothers (by simpa using hfirst hhas) (.inl rfl)
      | some first =>
        dsimp only
        split_ifs with hsame
        · exact ih hrest hothers hbefore (.inl rfl)
        · exact .throw ⟨hpolicy, hsame, location, hlocation, rfl, hbefore first rfl, hfirst hhas⟩

/-- An owner of an output is found in its block. -/
theorem safe_ownerIn (h : Intact r known) {id : OutputId} {location : OutputLocation}
    (hlocation : r.output id = .ok (some location)) {b : Block} {ts : List Transaction}
    (hb : r.block location.height = .ok (some b)) (hts : ts.map Transaction.hash = b.txHashes)
    (hknown : ∀ t ∈ b.rewardTx :: ts, known t)
    (howns : ∃ t ∈ b.rewardTx :: ts, t.owns location.key = true) :
    Safe (TraceError.OfIntact r c start) (fun found => ∃ owner ∈ found, Owner r location owner)
      (ownerIn r c.ownerPolicy id location b) := by
  obtain ⟨hreward, hlisted⟩ := List.forall_mem_cons.mp fun t ht => h.owner_of_mem hb hts hknown ht
  obtain ⟨-, hlistedKnown⟩ := List.forall_mem_cons.mp hknown
  rw [List.exists_mem_cons_iff] at howns
  unfold ownerIn
  rw [← hts]
  cases hhas : b.rewardTx.owns location.key with
  | true =>
    cases hpolicy : c.ownerPolicy with
    | firstMatch => exact .pure ⟨_, rfl, hreward hhas⟩
    | rejectAmbiguous =>
      exact h.safe_onlyOwner hpolicy hlocation hlistedKnown hlisted (by simpa using hreward hhas) (.inl rfl)
  | false =>
    have hlater : ∃ t ∈ ts, t.owns location.key = true := by simpa [hhas] using howns
    cases hpolicy : c.ownerPolicy with
    | firstMatch => exact h.safe_firstOwner hlistedKnown hlisted hlater
    | rejectAmbiguous =>
      exact h.safe_onlyOwner hpolicy hlocation hlistedKnown hlisted (by simp) (.inr hlater)

/-- The owner of an output is a known transaction. -/
theorem safe_findOwner (h : Intact r known) (id : OutputId) :
    Safe (TraceError.OfIntact r c start) (fun owner => ∃ t, known t ∧ t.hash = owner)
      (findOwner r c.ownerPolicy id) := by
  refine .bind (h.safe_locate id) fun location hlocation => ?_
  obtain ⟨b, ts, hb, hts, hknown, howns⟩ := h.block id location hlocation
  have hfetch : (fetchBlock r location.height).result = .ok b := by
    rw [fetchBlock, hb]
    rfl
  refine .bind (Q := (b = ·)) (.of_result hfetch rfl) ?_
  rintro _ rfl
  refine .bind (h.safe_ownerIn hlocation hb hts hknown howns) ?_
  rintro _ ⟨owner, rfl, howner⟩
  exact .pure (h.exists_known hlocation howner)

/-- Reading a ring fails only where the offsets of the input do not read. -/
theorem safe_ringOf {hash : TxHash} {t : Transaction} (ht : r.transaction hash = .ok (some t))
    {amount : UInt64} {keyOffsets : List UInt64} {keyImage : KeyImage}
    (hinput : .keyed amount keyOffsets keyImage ∈ t.tracedInputs) :
    Safe (TraceError.OfIntact r c start) (fun _ => True) (ringOf hash keyOffsets) := by
  unfold ringOf
  split
  · exact .pure trivial
  · exact .throw ⟨t, ht, _, hinput, ‹_›⟩

/-- The owners of a ring are known transactions. -/
theorem safe_ownersOf (h : Intact r known) (amount : UInt64) (ring : List UInt64) :
    Safe (TraceError.OfIntact r c start) (fun owners => ∀ owner ∈ owners, ∃ t, known t ∧ t.hash = owner)
      (ownersOf r c.ownerPolicy amount ring) := by
  induction ring with
  | nil => exact .pure (List.forall_mem_nil _)
  | cons index rest ih =>
    refine .bind (h.safe_findOwner _) fun owner howner => ?_
    refine .bind ih fun owners howners => ?_
    exact .pure (List.forall_mem_cons.mpr ⟨howner, howners⟩)

/-- The owners to which inputs of a known transaction lead are known. -/
theorem safe_expandInputs (h : Intact r known) {t : Transaction} (ht : known t) {inputs : List Input}
    (hinputs : ∀ input ∈ inputs.takeWhile fun input => !input.isTerminal, input ∈ t.tracedInputs) :
    Safe (TraceError.OfIntact r c start)
      (fun x => ∀ owner ∈ x.owners, ∃ t, known t ∧ t.hash = owner)
      (expandInputs r c.ownerPolicy t.hash inputs) := by
  induction inputs with
  | nil => exact .pure (List.forall_mem_nil _)
  | cons input rest ih =>
    cases input with
    | terminal height => exact .pure (List.forall_mem_nil _)
    | keyed amount keyOffsets keyImage =>
      rw [List.takeWhile_cons_of_pos rfl, List.forall_mem_cons] at hinputs
      obtain ⟨hfirst, hrest⟩ := hinputs
      refine .bind (safe_ringOf (h.transaction t ht) hfirst) fun ring _ => ?_
      refine .bind (h.safe_ownersOf amount ring) fun owners howners => ?_
      refine .bind (ih hrest) fun others hothers => ?_
      exact .pure (List.forall_mem_append.mpr ⟨howners, hothers⟩)

/-- The owners to which a level of known transactions leads are known. -/
theorem safe_expandAll (h : Intact r known) {hashes : List TxHash}
    (hhashes : ∀ hash ∈ hashes, ∃ t, known t ∧ t.hash = hash) :
    Safe (TraceError.OfIntact r c start)
      (fun x => ∀ owner ∈ x.owners, ∃ t, known t ∧ t.hash = owner)
      (expandAll r c.ownerPolicy hashes) := by
  induction hashes with
  | nil => exact .pure (List.forall_mem_nil _)
  | cons hash rest ih =>
    obtain ⟨hfirst, hrest⟩ := List.forall_mem_cons.mp hhashes
    obtain ⟨t, ht, rfl⟩ := hfirst
    have hexpand : Safe (TraceError.OfIntact r c start)
        (fun x => ∀ owner ∈ x.owners, ∃ t, known t ∧ t.hash = owner)
        (expand r c.ownerPolicy t.hash) := by
      refine .bind (Q := (t = ·)) (.of_result (result_fetchTransaction (h.transaction t ht)) rfl) ?_
      rintro _ rfl
      exact h.safe_expandInputs ht fun _ hinput => hinput
    refine .bind hexpand fun x hx => ?_
    refine .bind (ih hrest) fun others hothers => ?_
    exact .pure (List.forall_mem_append.mpr ⟨hx, hothers⟩)

/-- A search never leaves the known transactions. -/
theorem failsOnly_search (h : Intact r known) {fuel depth : ℕ} {frontier met : Std.ExtTreeSet TxHash}
    (hfrontier : ∀ hash ∈ frontier, ∃ t, known t ∧ t.hash = hash) :
    Traced.FailsOnly (TraceError.OfIntact r c start) (search r c start fuel frontier met depth) := by
  -- What the induction carries along is that the frontier is known.
  induction fuel generalizing frontier met depth with
  | zero => exact .throw rfl
  | succ fuel ih =>
    have hlevel : Safe (TraceError.OfIntact r c start)
        (fun x => ∀ owner ∈ x.owners, ∃ t, known t ∧ t.hash = owner)
        (expandAll r c.ownerPolicy frontier.toList) :=
      h.safe_expandAll fun hash hhash => hfrontier hash (Std.ExtTreeSet.mem_toList.mp hhash)
    intro e he
    rw [result_search_succ] at he
    cases hx : (expandAll r c.ownerPolicy frontier.toList).result with
    | error e' =>
      rw [hx] at he
      obtain rfl : e' = e := Except.error.inj he
      exact hlevel.fails e' hx
    | ok x =>
      rw [hx] at he
      dsimp only at he
      split_ifs at he with hminted hnew
      · cases he
        rfl
      · cases hlimit : exceeds c (depth + 1) with
        | some limit =>
          rw [hlimit] at he
          cases he
          exact ⟨rfl, (exceeds_eq_some_iff.mp hlimit).1⟩
        | none =>
          rw [hlimit] at he
          exact ih (fun hash hhash => hlevel.gives x hx hash (mem_unmet.mp hhash).1) e he

/-- A trace from a known transaction has no failures but those that intact lookups leave. -/
theorem trace_eq_error (h : Intact r known) {t : Transaction} (ht : known t) {e : TraceError}
    (he : trace r c t.hash = .error e) : e.OfIntact r c t.hash := by
  have hstart : ∀ hash ∈ Std.ExtTreeSet.ofList [t.hash], ∃ t, known t ∧ t.hash = hash := by
    intro hash hhash
    exact ⟨t, ht, by simpa [← Std.ExtTreeSet.contains_iff_mem] using hhash⟩
  have hsearch : Traced.FailsOnly (TraceError.OfIntact r c t.hash)
      (search r c t.hash hashCount (.ofList [t.hash]) (.ofList [t.hash]) 0) :=
    h.failsOnly_search hstart
  apply hsearch
  rw [← map_depth_trace, he]
  rfl

end Trace.Intact

end RingDepth
