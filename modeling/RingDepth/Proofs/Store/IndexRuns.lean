import RingDepth.Proofs.Store.Indexing

/-!
# The index of outputs never overwrites itself

Outputs may be stored under any numbers, with gaps and again and again, and in between they are appended, each
for itself in a batch or all that a block adds. In every state that is reached from an empty store, the count
of an amount is one more than the greatest number that was put, so what is appended takes fresh numbers and
leaves all else as it is.

What was put is kept beside the store.
-/

namespace RingDepth

/-- Whether outputs are placed behind those of their amounts: under fresh numbers, one after the other from
the count on, in their order. All that was there stays. -/
structure Store.Places {σ : Type} [Store σ] (s s' : σ) (outputs : List (UInt64 × OutputLocation)) : Prop where
  count : ∀ amount n, Store.outputCount s amount = .ok n →
    ∃ n', Store.outputCount s' amount = .ok n' ∧ n'.toNat = n.toNat + (Puts.locationsOf outputs amount).length
  fresh : ∀ amount n index, Store.outputCount s amount = .ok n → n ≤ index →
    Store.output s ⟨amount, index⟩ = .error (.notFound (.output ⟨amount, index⟩))
  placed : ∀ amount n (k : ℕ) location, Store.outputCount s amount = .ok n →
    (Puts.locationsOf outputs amount)[k]? = some location →
    ∃ index : UInt64, index.toNat = n.toNat + k ∧ Store.output s' ⟨amount, index⟩ = .ok location
  kept : ∀ amount n index, Store.outputCount s amount = .ok n → index < n →
    Store.output s' ⟨amount, index⟩ = Store.output s ⟨amount, index⟩

namespace Store.Indexing

variable {σ : Type} [Store σ] [Store.Refusing σ] [Store.Declining σ] [Store.Indexing σ] {s s' : σ} {puts : Puts}

/-- The count that is found is the next number. -/
theorem toNat_outputCount (h : Indexes s puts) {amount n : UInt64} (hn : Store.outputCount s amount = .ok n) :
    n.toNat = puts.next amount := by
  obtain ⟨m, hm, hnext⟩ := outputCount h amount
  rw [hn] at hm
  cases hm
  exact hnext

/-- Outputs that are appended are placed. -/
theorem places {outputs : List (UInt64 × OutputLocation)} (h : Indexes s puts)
    (h' : Indexes s' (puts ++ puts.appends outputs)) : Store.Places s s' outputs := by
  have hroom (amount : UInt64) : Puts.next (puts ++ puts.appends outputs) amount < UInt64.size := by
    obtain ⟨n, -, hn⟩ := outputCount h' amount
    exact hn ▸ n.toNat_lt
  constructor
  · intro amount n hn
    obtain ⟨n', hn', hnext⟩ := outputCount h' amount
    exact ⟨n', hn', by rw [hnext, Puts.next_appends (hroom amount), toNat_outputCount h hn]⟩
  · intro amount n index hn hle
    have hnone : puts.last ⟨amount, index⟩ = none := Puts.last_eq_none (by
      rw [← toNat_outputCount h hn]
      exact UInt64.le_iff_toNat_le.mp hle)
    rw [output h, hnone]
    rfl
  · intro amount n k location hn hk
    have hcount := toNat_outputCount h hn
    have hbelow := hroom amount
    rw [Puts.next_appends (hroom amount), ← hcount] at hbelow
    have hk' := (List.getElem?_eq_some_iff.mp hk).1
    have hindex : (UInt64.ofNat (n.toNat + k)).toNat = n.toNat + k := UInt64.toNat_ofNat_of_lt' (by omega)
    refine ⟨UInt64.ofNat (n.toNat + k), hindex, ?_⟩
    rw [output h', Puts.last_appends (hroom amount), hindex, ← hcount, if_neg (by omega), Nat.add_sub_cancel_left, hk]
    rfl
  · intro amount n index hn hlt
    rw [output h', output h, Puts.last_appends (hroom amount), if_pos]
    rw [← toNat_outputCount h hn]
    exact UInt64.lt_iff_toNat_lt.mp hlt

end Store.Indexing

/-! ### Runs -/

/-- A call of a run. -/
inductive IndexCall where
  | write (c : WriteCall)
  | refuseWrites (refuse : Bool)

/-- A call of a run over a store that takes batches. -/
inductive BatchingCall where
  | call (c : IndexCall)
  /-- Runs a batch, and commits it or drops it. -/
  | batch (steps : List BatchStep) (committing : Bool)

/-- A store and the outputs that were put into it. -/
structure Indexed (σ : Type) where
  puts : Puts
  store : σ

namespace Indexed

section

variable {σ : Type} [Store σ] [Store.Refusing σ]

/-- Does a call. One that fails leaves all as it was. -/
def call (h : Indexed σ) : IndexCall → Indexed σ
  | .write c =>
    match c.run h.store with
    | .ok store => { puts := h.puts ++ h.puts.ofSteps c.steps, store }
    | .error _ => h
  | .refuseWrites refuse => { h with store := Store.Refusing.refuseWrites refuse h.store }

/-- Does a call or a batch. One that fails leaves all as it was, and a batch that is dropped puts nothing. -/
def callBatching [Store.Batching σ] (h : Indexed σ) : BatchingCall → Indexed σ
  | .call c => h.call c
  | .batch steps committing =>
    match Store.Batching.runBatch h.store steps committing with
    | .ok (_, store) => { puts := if committing then h.puts ++ h.puts.ofSteps steps else h.puts, store }
    | .error _ => h

/-- The store after a sequence of calls, and what was put. -/
def run (s : σ) (calls : List IndexCall) : Indexed σ := calls.foldl call { puts := [], store := s }

/-- The store after a sequence of calls and batches, and what was put. -/
def runBatching [Store.Batching σ] (s : σ) (calls : List BatchingCall) : Indexed σ :=
  calls.foldl callBatching { puts := [], store := s }

variable [Store.Declining σ]

/-- A state in which the index of outputs was never overwritten, and in which no write of a block will do so.
What was put last under a number is found there, and the count of an amount is one more than the greatest
number, or zero. A call fails only if the backend declines it, if it counts too far, or if there is no height
left. -/
structure NeverOverwrites (h : Indexed σ) : Prop where
  count : ∀ amount, ∃ n, Store.outputCount h.store amount = .ok n ∧ h.puts.IsNext amount n
  output : ∀ id, Store.output h.store id = Store.answer (.output id) (h.puts.last id)
  below : ∀ id location, Store.output h.store id = .ok location →
    ∃ n, Store.outputCount h.store id.amount = .ok n ∧ id.index < n
  places : ∀ w s, Store.writeBlock h.store w = .ok s → Store.Places h.store s w.outputs
  fails : ∀ c cause, c.run h.store = .error cause → Store.Fails h.store h.puts c cause

/-- A state in which batches number their outputs as they should: each operation that asks for the next number
of an amount is answered by it, after what the operations before it put. A batch fails only if the backend
declines it, or if it counts too far. -/
structure NumbersBatches [Store.Batching σ] (h : Indexed σ) : Prop where
  numbers : ∀ steps committing answers s, Store.Batching.runBatch h.store steps committing = .ok (answers, s) →
    h.puts.Numbers steps answers
  places : ∀ (outputs : List (UInt64 × OutputLocation)) answers s, Store.Batching.runBatch h.store
      (outputs.map fun (amount, location) => .appendOutput amount location) true = .ok (answers, s) →
    Store.Places h.store s outputs
  fails : ∀ steps committing cause, Store.Batching.runBatch h.store steps committing = .error cause →
    (∃ e, cause = .failure (.engine e) ∧ Store.Declining.Declines h.store (.engine e)) ∨
      cause = .overflow ∧ h.puts.CountsTooFar steps

end

section

variable {σ : Type} [Store σ] [Store.Refusing σ] [Store.Declining σ] [Store.Indexing σ] {h : Indexed σ}

/-- A store indexes what was put into it. -/
def Faithful (h : Indexed σ) : Prop := Store.Indexing.Indexes h.store h.puts

namespace Faithful

/-- A call keeps this so. -/
theorem call (hf : h.Faithful) (c : IndexCall) : (h.call c).Faithful := by
  cases c with
  | refuseWrites refuse => exact Store.Indexing.refuseWrites refuse hf
  | write c =>
    rw [Indexed.call]
    cases hrun : c.run h.store with
    | ok s => exact Store.Indexing.run hf hrun
    | error cause => exact hf

/-- So does a batch. -/
theorem callBatching [Store.Batching σ] [Store.IndexingBatches σ] (hf : h.Faithful) (c : BatchingCall) :
    (h.callBatching c).Faithful := by
  cases c with
  | call c => exact hf.call c
  | batch steps committing =>
    rw [Indexed.callBatching]
    cases hrun : Store.Batching.runBatch h.store steps committing with
    | ok r => exact (Store.IndexingBatches.runBatch hf hrun).2
    | error cause => exact hf

/-- A store that indexes what was put overwrites nothing. -/
theorem neverOverwrites (hf : h.Faithful) : h.NeverOverwrites where
  count amount := by
    obtain ⟨n, hn, hnext⟩ := Store.Indexing.outputCount hf amount
    exact ⟨n, hn, Puts.isNext_of_toNat hnext⟩
  output := Store.Indexing.output hf
  below id location hfound := by
    rw [Store.Indexing.output hf, Store.answer_eq_ok_iff] at hfound
    obtain ⟨n, hn, hnext⟩ := Store.Indexing.outputCount hf id.amount
    exact ⟨n, hn, UInt64.lt_iff_toNat_lt.mpr (hnext ▸ Puts.lt_next_of_last hfound)⟩
  places w s hwrite := by
    have hafter := Store.Indexing.run (c := .writeBlock w) hf hwrite
    rw [WriteCall.steps, Puts.ofSteps_writeBlock] at hafter
    exact Store.Indexing.places hf hafter
  fails _ _ hrun := Store.Indexing.fails hf hrun

/-- Its batches number their outputs. -/
theorem numbersBatches [Store.Batching σ] [Store.IndexingBatches σ] (hf : h.Faithful) : h.NumbersBatches where
  numbers _ _ _ _ hrun := (Store.IndexingBatches.runBatch hf hrun).1
  places _ _ _ hrun := Store.Indexing.places hf (Store.IndexingBatches.runBatch hf hrun).2
  fails _ _ _ hrun := Store.IndexingBatches.fails hf hrun

end Faithful

/-- After a run from a store to which nothing was put, the store indexes what was put. -/
theorem faithful_run {s : σ} (hempty : Store.Indexing.Indexes s []) (calls : List IndexCall) :
    (run s calls).Faithful := by
  induction calls using List.reverseRecOn with
  | nil => exact hempty
  | append_singleton calls c ih =>
    rw [run, List.foldl_append]
    exact ih.call c

/-- So it does after a run with batches. -/
theorem faithful_runBatching [Store.Batching σ] [Store.IndexingBatches σ] {s : σ}
    (hempty : Store.Indexing.Indexes s []) (calls : List BatchingCall) : (runBatching s calls).Faithful := by
  induction calls using List.reverseRecOn with
  | nil => exact hempty
  | append_singleton calls c ih =>
    rw [runBatching, List.foldl_append]
    exact ih.callBatching c

end

end Indexed

/-- The index of outputs never overwrites itself. This holds in every state that is reached from an empty
store, one in memory or a ledger directory, reached through a memory map or not, by any calls that write and,
in a ledger directory, by any batches. -/
theorem index_neverOverwrites :
    (∀ metadata failWrites calls, (Indexed.run ({ metadata, failWrites } : Memory) calls).NeverOverwrites) ∧
    (∀ metadata readOnly calls,
      let h := Indexed.runBatching ({ tables := { metadata }, readOnly } : Environment) calls
      h.NeverOverwrites ∧ h.NumbersBatches) ∧
    ∀ metadata readOnly pages mapSize calls,
      let h := Indexed.runBatching
        ({ environment := { tables := { metadata }, readOnly }, pages, mapSize } : MappedEnvironment) calls
      h.NeverOverwrites ∧ h.NumbersBatches := by
  refine ⟨fun metadata failWrites calls => ?_, fun metadata readOnly calls => ?_,
    fun metadata readOnly pages mapSize calls => ?_⟩
  · exact (Indexed.faithful_run (Memory.indexes_empty metadata failWrites) calls).neverOverwrites
  · have hf : Indexed.Faithful (Indexed.runBatching ({ tables := { metadata }, readOnly } : Environment) calls) :=
      Indexed.faithful_runBatching (Tables.indexes_empty metadata) calls
    exact ⟨hf.neverOverwrites, hf.numbersBatches⟩
  · have hf : Indexed.Faithful (Indexed.runBatching
        ({ environment := { tables := { metadata }, readOnly }, pages, mapSize } : MappedEnvironment) calls) :=
      Indexed.faithful_runBatching (Tables.indexes_empty metadata) calls
    exact ⟨hf.neverOverwrites, hf.numbersBatches⟩

/-- An output that is stored under number 5 leaves numbers 0 to 4 free, and the next output of its amount gets
number 6. -/
example :
    let calls : List IndexCall :=
      [.write (.insertOutput ⟨7, 5⟩ ⟨0, .zero⟩), .write (.writeBlock ⟨0, .zero, [], [], [(7, ⟨0, .zero⟩)]⟩)]
    (Indexed.run ({} : Memory) calls).puts.map Prod.fst = [⟨7, 5⟩, ⟨7, 6⟩] := by
  decide +kernel

end RingDepth
