import RingDepth.Proofs.Ledger.Run
import RingDepth.Proofs.Store.Alike
import RingDepth.Proofs.Store.Batches
import RingDepth.Proofs.Store.Puts

/-!
# Stores index what was put

A store of outputs that has seen some outputs put, one after the other, finds under each number what was put there last,
and knows the next number of each amount. Every operation keeps this so. Storing an output under any number raises the
count if it is not above the number, and appending one takes the count for its number: these are two rules, but both
come to the next number of the amount.

In memory this is seen from the maps. Tables are alike to a store in memory, so it holds of them, too.
-/

namespace RingDepth

namespace Puts

/-- Storing transactions puts no output. -/
theorem ofSteps_insertTransactions (before : Puts) (entries : List (TxHash × Bytes)) (rest : List BatchStep) :
    ofSteps before (entries.map (fun (hash, bytes) => .insertTransaction hash bytes) ++ rest) =
      ofSteps before rest := by
  induction entries with
  | nil => rfl
  | cons entry entries ih =>
    change ofSteps (before ++ []) _ = _
    rw [List.append_nil]
    exact ih

/-- Writing a block puts the outputs of the block. -/
theorem ofSteps_writeBlock (before : Puts) (w : BlockWrite) : ofSteps before w.steps = appends before w.outputs := by
  rw [BlockWrite.steps, List.append_assoc, ofSteps_insertTransactions, ofSteps_append]
  exact List.append_nil _

/-- Writing a block counts too far if appending its outputs does. -/
theorem CountsTooFar.writeBlock {before : Puts} {w : BlockWrite}
    (h : CountsTooFar before (w.outputs.map fun (amount, location) => .appendOutput amount location)) :
    CountsTooFar before w.steps := by
  rw [BlockWrite.steps, List.append_assoc]
  induction w.transactions with
  | nil => exact h.append_right _
  | cons entry rest ih =>
    refine .later ?_
    change CountsTooFar (before ++ []) _
    rw [List.append_nil]
    exact ih

end Puts

/-- Stores whose backend may decline a write that it could do otherwise. -/
class Store.Declining (σ : Type) where
  Declines : σ → BackendError → Prop

/-- Writing a block is made to fail. -/
instance : Store.Declining Memory where
  Declines s cause := s.failWrites = true ∧ ∃ height, cause = .injected height

/-- The directory may only be read. -/
instance : Store.Declining Environment where
  Declines e cause := e.readOnly = true ∧ cause = .engine .readOnly

/-- The directory may only be read, or the memory map has no room for some entries. -/
instance : Store.Declining MappedEnvironment where
  Declines m cause := Store.Declining.Declines m.environment cause ∨
    ∃ entries c, m.pages.putAll m.mapSize entries = .error c ∧ cause = .engine c

/-- Why a call that writes to a store fails: the backend declines it, it counts too far, or there is no height left for
the block, even without its outputs. -/
inductive Store.Fails {σ : Type} [Store σ] [Store.Declining σ] (s : σ) (puts : Puts) :
    WriteCall → Halt StoreError → Prop
  | declined (c : WriteCall) (e : BackendError) (h : Store.Declining.Declines s e) :
    Fails s puts c (.failure (.backend e))
  | count (c : WriteCall) (h : puts.CountsTooFar c.steps) : Fails s puts c .overflow
  | height (w : BlockWrite) (h : Store.writeBlock s { w with outputs := [] } = .error .overflow) :
    Fails s puts (.writeBlock w) .overflow

namespace Memory

/-- A store in memory indexes what was put: it finds what was put last under each number, and it knows the next number
of each amount. -/
structure Indexes (s : Memory) (puts : Puts) : Prop where
  outputs : MapHolds s.outputs id id puts.last
  outputCounts : ∀ amount, (s.outputCount amount).toNat = puts.next amount

variable {s s' : Memory} {puts : Puts}

/-- A store without entries indexes nothing. -/
theorem indexes_empty (metadata : Std.ExtTreeMap String Bytes) (failWrites : Bool) :
    Indexes { metadata, failWrites } [] where
  outputs _ := by simp [Puts.last]
  outputCounts _ := by simp [Puts.next, outputCount]

/-- An output is not stored only if its number is the greatest of all counters. -/
theorem insertOutput_eq_error {id : OutputId} {location : OutputLocation} {cause : Halt StoreError}
    (h : s.insertOutput id location = .error cause) : cause = .overflow ∧ id.index.toNat + 1 = UInt64.size := by
  rw [insertOutput] at h
  dsimp only at h
  split at h
  · cases h
  · obtain hcount | ⟨count, -, hok⟩ := bind_eq_error_iff.mp h
    · obtain ⟨hcause, hsize⟩ := addCounter_eq_error hcount
      have hlt : id.index.toNat < UInt64.size := id.index.toNat_lt
      exact ⟨hcause, Nat.le_antisymm hlt hsize⟩
    · cases hok

/-- Does an operation of a batch. -/
def apply (s : Memory) : BatchStep → Except (Halt StoreError) Memory
  | .insertBlock height hash bytes => .ok (s.insertBlock height hash bytes)
  | .insertTransaction hash bytes => .ok (s.insertTransaction hash bytes)
  | .insertOutput output location => s.insertOutput output location
  | .appendOutput amount location => s.appendOutput amount location
  | .outputCount _ => .ok s

/-- Numbering outputs is appending them one after the other. -/
theorem number_eq (s : Memory) (outputs : List (UInt64 × OutputLocation)) :
    s.number outputs = (outputs.map fun (amount, location) => .appendOutput amount location).foldlM apply s := by
  rw [List.foldlM_map]
  rfl

namespace Indexes

/-- The next number is what the count says. -/
theorem outputCount_eq (h : Indexes s puts) (amount : UInt64) :
    s.outputCount amount = UInt64.ofNat (puts.next amount) := by
  rw [← h.outputCounts, UInt64.ofNat_toNat]

/-- An output that is stored was put. -/
theorem insertOutput {output : OutputId} {location : OutputLocation} (h : Indexes s puts)
    (hinsert : s.insertOutput output location = .ok s') : Indexes s' (puts ++ [(output, location)]) := by
  have houtputs : MapHolds (s.outputs.insert output location) id id (Puts.last (puts ++ [(output, location)])) := by
    rw [Puts.last_concat]
    exact h.outputs.insert Function.injective_id output location
  rw [Memory.insertOutput] at hinsert
  dsimp only at hinsert
  split at hinsert
  · rename_i hbelow
    cases hinsert
    refine ⟨houtputs, fun amount => ?_⟩
    rw [Puts.next_concat]
    split_ifs with hsame
    · have hlt := UInt64.lt_iff_toNat_lt.mp hbelow
      rw [h.outputCounts, hsame] at hlt
      exact (h.outputCounts amount).trans (Nat.max_eq_left hlt).symm
    · exact h.outputCounts amount
  · rename_i hbelow
    obtain ⟨count, hcount, heq⟩ := bind_eq_ok_iff.mp hinsert
    cases heq
    rw [addCounter_eq_ok_iff] at hcount
    refine ⟨houtputs, fun amount => ?_⟩
    rw [Puts.next_concat, outputCount, getD_insert]
    split_ifs with hsame
    · have hle := Nat.le_of_not_lt fun hlt => hbelow (UInt64.lt_iff_toNat_lt.mpr hlt)
      rw [h.outputCounts, hsame] at hle
      rw [hcount]
      exact (Nat.max_eq_right (Nat.le_succ_of_le hle)).symm
    · exact h.outputCounts amount

/-- An operation puts what it is said to put. -/
theorem apply {b : BatchStep} (h : Indexes s puts) (happly : s.apply b = .ok s') :
    Indexes s' (puts ++ b.puts puts) := by
  cases b with
  | insertBlock height hash bytes =>
    cases happly
    exact (List.append_nil puts).symm ▸ ⟨h.outputs, h.outputCounts⟩
  | insertTransaction hash bytes =>
    cases happly
    exact (List.append_nil puts).symm ▸ ⟨h.outputs, h.outputCounts⟩
  | insertOutput output location => exact h.insertOutput happly
  | appendOutput amount location =>
    rw [Memory.apply, appendOutput_eq, h.outputCount_eq] at happly
    exact h.insertOutput happly
  | outputCount amount =>
    cases happly
    exact (List.append_nil puts).symm ▸ h

/-- An operation that fails counts too far. -/
theorem apply_eq_error {b : BatchStep} {cause : Halt StoreError} (h : Indexes s puts)
    (happly : s.apply b = .error cause) (rest : List BatchStep) :
    cause = .overflow ∧ puts.CountsTooFar (b :: rest) := by
  cases b with
  | insertBlock height hash bytes => cases happly
  | insertTransaction hash bytes => cases happly
  | insertOutput output location =>
    obtain ⟨hcause, hgreatest⟩ := insertOutput_eq_error happly
    exact ⟨hcause, .insert hgreatest⟩
  | appendOutput amount location =>
    rw [Memory.apply, appendOutput_eq] at happly
    obtain ⟨hcause, hgreatest⟩ := insertOutput_eq_error happly
    rw [h.outputCounts] at hgreatest
    exact ⟨hcause, .append hgreatest⟩
  | outputCount amount => cases happly

/-- Operations that are done one after the other put what they are said to put. -/
theorem foldlM_apply {steps : List BatchStep} (h : Indexes s puts) (hsteps : steps.foldlM Memory.apply s = .ok s') :
    Indexes s' (puts ++ puts.ofSteps steps) := by
  induction steps generalizing s puts with
  | nil =>
    cases hsteps
    exact (List.append_nil puts).symm ▸ h
  | cons b rest ih =>
    obtain ⟨next, hnext, hrest⟩ := bind_eq_ok_iff.mp hsteps
    rw [Puts.ofSteps, ← List.append_assoc]
    exact ih (h.apply hnext) hrest

/-- They fail only where one of them counts too far. -/
theorem foldlM_apply_eq_error {steps : List BatchStep} {cause : Halt StoreError} (h : Indexes s puts)
    (hsteps : steps.foldlM Memory.apply s = .error cause) : cause = .overflow ∧ puts.CountsTooFar steps := by
  induction steps generalizing s puts with
  | nil => cases hsteps
  | cons b rest ih =>
    obtain hfirst | ⟨next, hnext, hrest⟩ := bind_eq_error_iff.mp hsteps
    · exact h.apply_eq_error hfirst rest
    · obtain ⟨hcause, hlater⟩ := ih (h.apply hnext) hrest
      exact ⟨hcause, .later hlater⟩

/-- Storing transactions puts no output. -/
theorem fill (h : Indexes s puts) (entries : List (TxHash × Bytes)) : Indexes (s.fill entries) puts :=
  List.foldlRecOn entries _ (motive := fun s => Indexes s puts) h fun _ hs _ _ => ⟨hs.outputs, hs.outputCounts⟩

end Indexes

/-- Storing transactions leaves the heights as they are. -/
theorem heights_fill (s : Memory) (entries : List (TxHash × Bytes)) : (s.fill entries).heights = s.heights :=
  List.foldlRecOn entries _ (motive := fun t : Memory => t.heights = s.heights) rfl fun _ ht _ _ => ht

/-- So does numbering outputs. -/
theorem heights_number {outputs : List (UInt64 × OutputLocation)} (h : s.number outputs = .ok s') :
    s'.heights = s.heights := by
  refine foldlM_preserves (p := fun t : Memory => t.heights = s.heights) ?_ rfl h
  intro t t' entry ht hnext
  obtain ⟨count, -, heq⟩ := bind_eq_ok_iff.mp hnext
  cases heq
  exact ht

/-- A block whose outputs are numbered is written if writes do not fail and there is a height left. -/
theorem writeBlock_of_number {w : BlockWrite} {numbered : Memory} (h : s.number w.outputs = .ok numbered) :
    s.writeBlock w =
      if s.failWrites then .error (.failure (.backend (.injected w.height)))
      else if UInt64.size ≤ (s.heights.insert w.height w.hash).size then .error .overflow
      else .ok ((numbered.fill w.transactions).insertBlock w.height w.hash w.bytes) := by
  have hheights : ((numbered.fill w.transactions).insertBlock w.height w.hash w.bytes).heights =
      s.heights.insert w.height w.hash := by
    rw [insertBlock, heights_fill, heights_number h]
  rw [← hheights, writeBlock_eq_number, h]
  cases s.failWrites <;> rfl

namespace Indexes

/-- Writing a block puts its outputs. -/
theorem writeBlock {w : BlockWrite} (h : Indexes s puts) (hwrite : s.writeBlock w = .ok s') :
    Indexes s' (puts ++ puts.appends w.outputs) := by
  obtain ⟨numbered, hnumber, -⟩ := bind_eq_ok_iff.mp ((s.writeBlock_eq_number w).symm.trans hwrite)
  have hnumbered : Indexes numbered (puts ++ puts.appends w.outputs) :=
    h.foldlM_apply ((number_eq s w.outputs).symm.trans hnumber)
  have hfilled := hnumbered.fill w.transactions
  rw [writeBlock_of_number hnumber] at hwrite
  split_ifs at hwrite
  cases hwrite
  exact ⟨hfilled.outputs, hfilled.outputCounts⟩

/-- A call that succeeds puts what its operations put. -/
theorem run {c : WriteCall} (h : Indexes s puts) (hrun : c.run s = .ok s') :
    Indexes s' (puts ++ puts.ofSteps c.steps) := by
  cases c with
  | insertBlock height hash bytes => exact h.apply (b := .insertBlock height hash bytes) hrun
  | insertTransaction hash bytes => exact h.apply (b := .insertTransaction hash bytes) hrun
  | insertOutput output location => exact h.insertOutput hrun
  | writeBlock w =>
    rw [WriteCall.steps, Puts.ofSteps_writeBlock]
    exact h.writeBlock hrun

/-- A call fails for a reason. -/
theorem fails {c : WriteCall} {cause : Halt StoreError} (h : Indexes s puts) (hrun : c.run s = .error cause) :
    Store.Fails s puts c cause := by
  cases c with
  | insertBlock height hash bytes => cases hrun
  | insertTransaction hash bytes => cases hrun
  | insertOutput output location =>
    obtain ⟨rfl, hgreatest⟩ := insertOutput_eq_error hrun
    exact .count _ (.insert hgreatest)
  | writeBlock w =>
    change s.writeBlock w = _ at hrun
    obtain hnumber | ⟨numbered, hnumber, -⟩ :=
      bind_eq_error_iff.mp ((s.writeBlock_eq_number w).symm.trans hrun)
    · obtain ⟨rfl, hcount⟩ := h.foldlM_apply_eq_error ((number_eq s w.outputs).symm.trans hnumber)
      exact .count _ hcount.writeBlock
    · rw [writeBlock_of_number hnumber] at hrun
      split_ifs at hrun with hfails hroom
      · cases hrun
        exact .declined _ _ ⟨hfails, _, rfl⟩
      · cases hrun
        refine .height w ?_
        have hnone : s.number { w with outputs := [] }.outputs = .ok s := rfl
        exact (writeBlock_of_number hnone).trans ((if_neg hfails).trans (if_pos hroom))

end Indexes

/-! ### Tables that are alike -/

namespace SameOutcome

/-- Where one write succeeds, the other does so, too. -/
theorem exists_of_ok {x : Except (Halt StoreError) Memory} {t : Tables} (h : SameOutcome x (.ok t)) :
    ∃ s, x = .ok s ∧ Alike s t := by
  cases h with
  | ok h => exact ⟨_, rfl, h⟩

/-- Where one write fails, both count too far. -/
theorem of_error {x : Except (Halt StoreError) Memory} {cause : Halt TableError}
    (h : SameOutcome x (.error cause)) : x = .error .overflow ∧ cause = .overflow := by
  cases h
  exact ⟨rfl, rfl⟩

/-- Where the other one fails, both do. -/
theorem eq_error {y : Except (Halt TableError) Tables} {cause : Halt StoreError}
    (h : SameOutcome (.error cause) y) : y = .error .overflow := by
  cases h
  rfl

end SameOutcome

namespace Alike

variable {t t' : Tables}

/-- Calls that write keep stores alike. -/
theorem run (h : Alike s t) (c : WriteCall) : SameOutcome (c.run s) (c.runOn t) := by
  cases c with
  | insertBlock height hash bytes => exact .ok (h.insertBlock height hash bytes)
  | insertTransaction hash bytes => exact .ok (h.insertTransaction hash bytes)
  | insertOutput output location => exact h.insertOutput output location
  | writeBlock w => exact h.writeBlock w

/-- Operations of a batch keep stores alike. -/
theorem apply (h : Alike s t) (b : BatchStep) : SameOutcome (s.apply b) ((t.step b).map Prod.snd) := by
  cases b with
  | insertBlock height hash bytes => exact .ok (h.insertBlock height hash bytes)
  | insertTransaction hash bytes => exact .ok (h.insertTransaction hash bytes)
  | insertOutput output location =>
    have hstep : (t.step (.insertOutput output location)).map Prod.snd = t.insertOutput output location := by
      rw [Tables.step]
      cases t.insertOutput output location <;> rfl
    exact hstep ▸ h.insertOutput output location
  | appendOutput amount location =>
    have hstep : (t.step (.appendOutput amount location)).map Prod.snd =
        (t.appendOutput amount location).map Prod.snd := by
      rw [Tables.step]
      cases t.appendOutput amount location <;> rfl
    exact hstep ▸ h.appendOutput amount location
  | outputCount amount =>
    rw [Tables.step, h.outputCounts]
    exact .ok h

/-- An operation that asks for the next number of an amount is answered by the number that the store in memory has. -/
theorem answer_of_step (h : Alike s t) {b : BatchStep} {answer : Option UInt64} (hstep : t.step b = .ok (answer, t')) :
    answer = b.asks.map s.outputCount := by
  cases b with
  | insertBlock height hash bytes =>
    cases hstep
    rfl
  | insertTransaction hash bytes =>
    cases hstep
    rfl
  | insertOutput output location =>
    obtain ⟨t, -, heq⟩ := map_eq_ok_iff.mp hstep
    cases heq
    rfl
  | appendOutput amount location =>
    obtain ⟨⟨n, t⟩, happend, heq⟩ := map_eq_ok_iff.mp hstep
    cases heq
    obtain ⟨hcount, -⟩ := Tables.eq_of_appendOutput happend
    rw [h.outputCounts] at hcount
    cases hcount
    rfl
  | outputCount amount =>
    rw [Tables.step, h.outputCounts] at hstep
    cases hstep
    rfl

end Alike

end Memory

/-- An operation that is answered by the next number of the amount that it asks for continues such a sequence. -/
theorem Puts.Numbers.cons {before : Puts} {b : BatchStep} {rest : List BatchStep} {answers : List (Option UInt64)}
    {count : UInt64 → UInt64} (hcount : ∀ amount, (count amount).toNat = before.next amount)
    (h : Numbers (before ++ b.puts before) rest answers) :
    Numbers before (b :: rest) (b.asks.map count :: answers) := by
  cases hasks : b.asks with
  | none => exact .silent hasks h
  | some amount => exact .asked hasks (isNext_of_toNat (hcount amount)) h

namespace Tables

/-- Tables index what was put if they are alike to a store in memory that does. -/
def Indexes (t : Tables) (puts : Puts) : Prop := ∃ s : Memory, s.Alike t ∧ s.Indexes puts

variable {t t' : Tables} {puts : Puts}

/-- Tables without entries index nothing. -/
theorem indexes_empty (metadata : Table) : Indexes { metadata } [] :=
  ⟨{}, .empty ∅ metadata, Memory.indexes_empty ∅ false⟩

namespace Indexes

/-- A call that succeeds puts what its operations put. -/
theorem runOn {c : WriteCall} (h : t.Indexes puts) (hrun : c.runOn t = .ok t') :
    t'.Indexes (puts ++ puts.ofSteps c.steps) := by
  obtain ⟨s, halike, hs⟩ := h
  have hsame := halike.run c
  rw [hrun] at hsame
  obtain ⟨s', hrun', halike'⟩ := hsame.exists_of_ok
  exact ⟨s', halike', hs.run hrun'⟩

/-- A batch puts what its operations put, and is answered by the next numbers of the amounts that it asks for. -/
theorem runBatch {steps : List BatchStep} {answers : List (Option UInt64)} (h : t.Indexes puts)
    (hrun : t.runBatch steps = .ok (answers, t')) :
    t'.Indexes (puts ++ puts.ofSteps steps) ∧ puts.Numbers steps answers := by
  induction steps generalizing t puts answers with
  | nil =>
    cases hrun
    exact ⟨(List.append_nil puts).symm ▸ h, .nil puts⟩
  | cons b rest ih =>
    obtain ⟨⟨answer, next⟩, hnext, hbody⟩ := bind_eq_ok_iff.mp hrun
    obtain ⟨⟨more, last⟩, hrest, heq⟩ := bind_eq_ok_iff.mp hbody
    cases heq
    obtain ⟨s, halike, hs⟩ := h
    have hsame := halike.apply b
    rw [hnext] at hsame
    obtain ⟨s', happly, halike'⟩ := hsame.exists_of_ok
    obtain ⟨hlast, hnumbers⟩ := ih ⟨s', halike', hs.apply happly⟩ hrest
    rw [halike.answer_of_step hnext, Puts.ofSteps, ← List.append_assoc]
    exact ⟨hlast, hnumbers.cons hs.outputCounts⟩

/-- It fails only where it counts too far. -/
theorem runBatch_eq_error {steps : List BatchStep} {cause : Halt TableError} (h : t.Indexes puts)
    (hrun : t.runBatch steps = .error cause) : cause = .overflow ∧ puts.CountsTooFar steps := by
  induction steps generalizing t puts with
  | nil => cases hrun
  | cons b rest ih =>
    obtain ⟨s, halike, hs⟩ := h
    have hsame := halike.apply b
    obtain hnext | ⟨⟨answer, next⟩, hnext, hbody⟩ := bind_eq_error_iff.mp hrun
    · rw [hnext] at hsame
      obtain ⟨happly, hcause⟩ := hsame.of_error
      exact ⟨hcause, (hs.apply_eq_error happly rest).2⟩
    · rw [hnext] at hsame
      obtain ⟨s', happly, halike'⟩ := hsame.exists_of_ok
      obtain hrest | ⟨later, -, hok⟩ := bind_eq_error_iff.mp hbody
      · obtain ⟨hcause, hlater⟩ := ih ⟨s', halike', hs.apply happly⟩ hrest
        exact ⟨hcause, .later hlater⟩
      · cases hok

end Indexes

end Tables

/-! ### Stores that index what was put -/

/-- Stores whose lookups of outputs answer from what was put, and whose calls put what their operations put,
or fail for a reason. -/
class Store.Indexing (σ : Type) [Store σ] [Store.Refusing σ] [Store.Declining σ] where
  Indexes : σ → Puts → Prop
  outputCount : ∀ {s : σ} {puts : Puts}, Indexes s puts → ∀ amount, ∃ n,
    Store.outputCount s amount = .ok n ∧ n.toNat = puts.next amount
  output : ∀ {s : σ} {puts : Puts}, Indexes s puts → ∀ id, Store.output s id = Store.answer (.output id) (puts.last id)
  run : ∀ {s s' : σ} {puts : Puts} {c : WriteCall}, Indexes s puts → c.run s = .ok s' →
    Indexes s' (puts ++ puts.ofSteps c.steps)
  fails : ∀ {s : σ} {puts : Puts} {c : WriteCall} {cause : Halt StoreError}, Indexes s puts → c.run s = .error cause →
    Store.Fails s puts c cause
  refuseWrites : ∀ {s : σ} {puts : Puts} (refuse : Bool), Indexes s puts →
    Indexes (Store.Refusing.refuseWrites refuse s) puts

/-- Stores that take batches, and keep what one did if it is committed. -/
class Store.Batching (σ : Type) where
  runBatch : σ → List BatchStep → Bool → Except (Halt TableError) (List (Option UInt64) × σ)

/-- Stores that take batches, and index what these put if they are committed. A batch fails only where the
backend declines it, or where it counts too far. -/
class Store.IndexingBatches (σ : Type) [Store σ] [Store.Refusing σ] [Store.Declining σ] [Store.Indexing σ]
    [Store.Batching σ] : Prop where
  runBatch : ∀ {s s' : σ} {puts : Puts} {steps : List BatchStep} {committing : Bool}
    {answers : List (Option UInt64)}, Store.Indexing.Indexes s puts →
    Store.Batching.runBatch s steps committing = .ok (answers, s') →
    puts.Numbers steps answers ∧ Store.Indexing.Indexes s' (if committing then puts ++ puts.ofSteps steps else puts)
  fails : ∀ {s : σ} {puts : Puts} {steps : List BatchStep} {committing : Bool} {cause : Halt TableError},
    Store.Indexing.Indexes s puts → Store.Batching.runBatch s steps committing = .error cause →
    (∃ e, cause = .failure (.engine e) ∧ Store.Declining.Declines s (.engine e)) ∨
      cause = .overflow ∧ puts.CountsTooFar steps

instance : Store.Indexing Memory where
  Indexes := Memory.Indexes
  outputCount h amount := ⟨_, rfl, h.outputCounts amount⟩
  output h id := Memory.find_eq_answer h.outputs id _
  run := Memory.Indexes.run
  fails := Memory.Indexes.fails
  refuseWrites _ h := ⟨h.outputs, h.outputCounts⟩

namespace Environment

variable {e e' : Environment} {puts : Puts}

/-- What the tables index, the count of an environment answers from. -/
theorem outputCount_of_indexes (h : e.tables.Indexes puts) (amount : UInt64) : ∃ n,
    Store.outputCount e amount = .ok n ∧ n.toNat = puts.next amount := by
  obtain ⟨s, halike, hs⟩ := h
  exact ⟨s.outputCount amount, halike.agree.outputCount amount, hs.outputCounts amount⟩

/-- So does its lookup. -/
theorem output_of_indexes (h : e.tables.Indexes puts) (id : OutputId) :
    Store.output e id = Store.answer (.output id) (puts.last id) := by
  obtain ⟨s, halike, hs⟩ := h
  exact (halike.agree.output id).trans (Memory.find_eq_answer hs.outputs id _)

/-- A call that succeeds puts what its operations put. -/
theorem indexes_of_run {c : WriteCall} (h : e.tables.Indexes puts) (hrun : c.run e = .ok e') :
    e'.tables.Indexes (puts ++ puts.ofSteps c.steps) := by
  rw [WriteCall.run_eq_transact, within_eq_ok_iff] at hrun
  obtain ⟨⟨⟩, -, hbody⟩ := bind_eq_ok_iff.mp hrun
  obtain ⟨tables, htables, heq⟩ := bind_eq_ok_iff.mp hbody
  cases heq
  exact h.runOn htables

/-- An environment that is not checked to be writable may only be read. -/
theorem readOnly_of_checkWritable {cause : TableError} (h : e.checkWritable = .error cause) :
    e.readOnly = true ∧ cause = .engine .readOnly := by
  rw [checkWritable] at h
  split at h
  · rename_i hreadOnly
    exact ⟨hreadOnly, (Except.error.inj h).symm⟩
  · cases h

/-- A call that may write and fails on the tables fails as these do. -/
theorem run_of_runOn {c : WriteCall} {cause : Halt TableError} (hcheck : e.checkWritable = .ok ())
    (h : c.runOn e.tables = .error cause) : c.run e = .error (cause.map TableError.toStoreError) := by
  rw [WriteCall.run_eq_transact, transact, hcheck]
  change Halt.within _ (c.runOn e.tables >>= _) = _
  rw [h]
  rfl

/-- A call fails for a reason. -/
theorem fails_of_run {c : WriteCall} {cause : Halt StoreError} (h : e.tables.Indexes puts)
    (hrun : c.run e = .error cause) : Store.Fails e puts c cause := by
  rw [WriteCall.run_eq_transact] at hrun
  obtain ⟨found, hfound, rfl⟩ := mapError_eq_error_iff.mp hrun
  obtain hrefused | ⟨⟨⟩, hcheck, hbody⟩ := bind_eq_error_iff.mp hfound
  · obtain ⟨refusal, hrefusal, rfl⟩ := monadLift_eq_error_iff.mp hrefused
    obtain ⟨hreadOnly, rfl⟩ := readOnly_of_checkWritable hrefusal
    exact .declined c _ ⟨hreadOnly, rfl⟩
  · obtain htables | ⟨tables, -, hok⟩ := bind_eq_error_iff.mp hbody
    · obtain ⟨s, halike, hs⟩ := h
      have hfailed : c.runOn e.tables = .error found := htables
      have hsame := halike.run c
      rw [hfailed] at hsame
      obtain ⟨hfails, rfl⟩ := hsame.of_error
      -- The store in memory fails, too, and for the same reason.
      cases hs.fails hfails with
      | count c h => exact .count c h
      | height w h =>
        have hnone := halike.run (.writeBlock { w with outputs := [] })
        change Memory.SameOutcome (Store.writeBlock s _) _ at hnone
        rw [h] at hnone
        exact .height w (run_of_runOn (monadLift_eq_ok_iff.mp hcheck) hnone.eq_error)
    · cases hok

/-- A batch is answered by the next numbers, and puts what its operations put if it is committed. -/
theorem indexes_of_runBatch {steps : List BatchStep} {committing : Bool} {answers : List (Option UInt64)}
    (h : e.tables.Indexes puts) (hrun : e.runBatch steps committing = .ok (answers, e')) :
    puts.Numbers steps answers ∧
      e'.tables.Indexes (if committing then puts ++ puts.ofSteps steps else puts) := by
  obtain ⟨-, tables, htables, rfl⟩ := runBatch_eq_ok_iff.mp hrun
  obtain ⟨hindexes, hnumbers⟩ := h.runBatch htables
  refine ⟨hnumbers, ?_⟩
  cases committing with
  | true => exact hindexes
  | false => exact h

/-- It fails only where it may not write, or where it counts too far. -/
theorem fails_of_runBatch {steps : List BatchStep} {committing : Bool} {cause : Halt TableError}
    (h : e.tables.Indexes puts) (hrun : e.runBatch steps committing = .error cause) :
    (∃ c, cause = .failure (.engine c) ∧ Store.Declining.Declines e (.engine c)) ∨
      cause = .overflow ∧ puts.CountsTooFar steps := by
  obtain hrefused | ⟨⟨⟩, -, hbody⟩ := bind_eq_error_iff.mp hrun
  · obtain ⟨refusal, hrefusal, rfl⟩ := monadLift_eq_error_iff.mp hrefused
    obtain ⟨hreadOnly, rfl⟩ := readOnly_of_checkWritable hrefusal
    exact .inl ⟨.readOnly, rfl, hreadOnly, rfl⟩
  · obtain htables | ⟨r, -, hok⟩ := bind_eq_error_iff.mp hbody
    · exact .inr (h.runBatch_eq_error htables)
    · cases hok

instance : Store.Indexing Environment where
  Indexes e := e.tables.Indexes
  outputCount := outputCount_of_indexes
  output := output_of_indexes
  run := indexes_of_run
  fails := fails_of_run
  refuseWrites _ h := h

instance : Store.Batching Environment where
  runBatch := runBatch

instance : Store.IndexingBatches Environment where
  runBatch := indexes_of_runBatch
  fails := fails_of_runBatch

end Environment

namespace MappedEnvironment

variable {m m' : MappedEnvironment} {puts : Puts}

/-- A write is not kept only if the memory map has no room for what it puts. -/
theorem declines_of_keep {entries : List TablePut} {e : Environment} {cause : TableError}
    (h : m.keep entries e = .error cause) : ∃ c, cause = .engine c ∧ Store.Declining.Declines m (.engine c) := by
  obtain hpages | ⟨pages, -, hok⟩ := bind_eq_error_iff.mp h
  · obtain ⟨c, hc, rfl⟩ := mapError_eq_error_iff.mp hpages
    exact ⟨c, rfl, .inr ⟨entries, c, hc, rfl⟩⟩
  · cases hok

/-- A call fails for a reason. -/
theorem fails_of_run {c : WriteCall} {cause : Halt StoreError} (h : m.environment.tables.Indexes puts)
    (hrun : c.run m = .error cause) : Store.Fails m puts c cause := by
  rw [WriteCall.run_mapped] at hrun
  obtain he | ⟨e, -, hstore⟩ := bind_eq_error_iff.mp hrun
  · cases Environment.fails_of_run h he with
    | declined c e h => exact .declined c e (.inl h)
    | count c h => exact .count c h
    | height w h =>
      refine .height w ((WriteCall.run_mapped m (.writeBlock { w with outputs := [] })).trans ?_)
      exact bind_eq_error_iff.mpr (.inl h)
  · obtain ⟨found, hfound, rfl⟩ := monadLift_eq_error_iff.mp hstore
    obtain ⟨refusal, hkeep, rfl⟩ := mapError_eq_error_iff.mp hfound
    obtain ⟨refusal, rfl, hdeclines⟩ := declines_of_keep hkeep
    exact .declined c _ hdeclines

/-- A batch fails only where the backend declines it, or where it counts too far. -/
theorem fails_of_runBatch {steps : List BatchStep} {committing : Bool} {cause : Halt TableError}
    (h : m.environment.tables.Indexes puts) (hrun : m.runBatch steps committing = .error cause) :
    (∃ c, cause = .failure (.engine c) ∧ Store.Declining.Declines m (.engine c)) ∨
      cause = .overflow ∧ puts.CountsTooFar steps := by
  obtain he | ⟨r, -, hbody⟩ := bind_eq_error_iff.mp hrun
  · obtain ⟨c, hcause, hdeclines⟩ | hcount := Environment.fails_of_runBatch h he
    · exact .inl ⟨c, hcause, .inl hdeclines⟩
    · exact .inr hcount
  · obtain hkeep | ⟨kept, -, hok⟩ := bind_eq_error_iff.mp hbody
    · obtain ⟨found, hfound, rfl⟩ := monadLift_eq_error_iff.mp hkeep
      obtain ⟨refusal, rfl, hdeclines⟩ := declines_of_keep hfound
      exact .inl ⟨refusal, rfl, hdeclines⟩
    · cases hok

instance : Store.Indexing MappedEnvironment where
  Indexes m := m.environment.tables.Indexes
  outputCount h := Environment.outputCount_of_indexes h
  output h := Environment.output_of_indexes h
  run h hrun := Environment.indexes_of_run h (WriteCall.run_environment hrun)
  fails := fails_of_run
  refuseWrites _ h := h

instance : Store.Batching MappedEnvironment where
  runBatch := runBatch

instance : Store.IndexingBatches MappedEnvironment where
  runBatch h hrun := Environment.indexes_of_runBatch h (runBatch_environment hrun)
  fails := fails_of_runBatch

end MappedEnvironment

end RingDepth
