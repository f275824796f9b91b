import RingDepth.Proofs.Store.Agree
import RingDepth.Proofs.Store.Memory
import RingDepth.Proofs.Store.Tables

/-!
# A store in memory and tables

A store in memory and the tables of a ledger directory are alike if the tables hold in their written form
what the maps of the store hold. Nothing is asked of the entries beyond that: heights and numbers of outputs
may have gaps, and entries may be overwritten. Every write keeps the two alike, or fails in both, and their
lookups find the same.

The two stores write a block in different orders, one numbering the outputs before it stores the
transactions, the other one after. As neither part looks at the other, the order does not matter.
-/

namespace RingDepth

/-- Where a map holds what another one holds, an entry that is put into both keeps it so. -/
theorem MapHolds.insert_get? {κ κ' ν ν' : Type} [Ord κ] [Std.TransOrd κ] [Std.LawfulEqOrd κ]
    [Ord κ'] [Std.TransOrd κ'] [Std.LawfulEqOrd κ'] [DecidableEq κ'] {m : Std.ExtTreeMap κ ν}
    {source : Std.ExtTreeMap κ' ν'} {key : κ' → κ} {value : ν' → ν}
    (h : MapHolds m key value source.get?) (hkey : Function.Injective key) (k : κ') (v : ν') :
    MapHolds (m.insert (key k) (value v)) key value (source.insert k v).get? := by
  have hsource : (source.insert k v).get? = Function.update source.get? k (some v) := by
    funext other
    rw [Std.ExtTreeMap.get?_eq_getElem?, Std.ExtTreeMap.getElem?_insert, Function.update_apply]
    by_cases hother : other = k
    · simp [hother]
    · simp [hother, Ne.symm hother]
  rw [hsource]
  exact h.insert hkey k v

namespace Memory

/-- The tables hold in their written form what a store in memory holds that takes writes. -/
structure Alike (s : Memory) (t : Tables) : Prop where
  blocks : MapHolds t.blocks Identifier.bytes id s.blocks.get?
  heights : MapHolds t.blockHeights Tables.numberKey Identifier.bytes s.heights.get?
  size : t.blockHeights.size = s.heights.size
  transactions : MapHolds t.transactions Identifier.bytes id s.transactions.get?
  outputs : MapHolds t.outputs Tables.outputKey Codec.encode s.outputs.get?
  outputCounts : ∀ amount, t.outputCount amount = .ok (s.outputCount amount)
  writes : s.failWrites = false

/-- Two writes come to stores that are alike, or both count too far. -/
inductive SameOutcome : Except (Halt StoreError) Memory → Except (Halt TableError) Tables → Prop
  | ok {s : Memory} {t : Tables} (h : Alike s t) : SameOutcome (.ok s) (.ok t)
  | overflow : SameOutcome (.error .overflow) (.error .overflow)

namespace SameOutcome

/-- What goes on from stores that are alike in the same way has the same outcome. -/
theorem bind {x : Except (Halt StoreError) Memory} {y : Except (Halt TableError) Tables}
    {f : Memory → Except (Halt StoreError) Memory} {g : Tables → Except (Halt TableError) Tables}
    (h : SameOutcome x y) (hf : ∀ s t, Alike s t → SameOutcome (f s) (g t)) :
    SameOutcome (x >>= f) (y >>= g) := by
  cases h with
  | ok h => exact hf _ _ h
  | overflow => exact .overflow

/-- A counter is raised in both, or in neither. -/
theorem addCounter {a b : UInt64} {f : UInt64 → Except (Halt StoreError) Memory}
    {g : UInt64 → Except (Halt TableError) Tables} (hf : ∀ n, SameOutcome (f n) (g n)) :
    SameOutcome (RingDepth.addCounter a b >>= f) (RingDepth.addCounter a b >>= g) := by
  unfold RingDepth.addCounter
  cases addChecked? a b with
  | none => exact .overflow
  | some n => exact hf n

/-- Steps that have the same outcome each have the same outcome together. -/
theorem foldlM {α : Type} {f : Memory → α → Except (Halt StoreError) Memory}
    {g : Tables → α → Except (Halt TableError) Tables}
    (hstep : ∀ s t a, Alike s t → SameOutcome (f s a) (g t a)) (xs : List α) {s : Memory} {t : Tables}
    (h : Alike s t) : SameOutcome (xs.foldlM f s) (xs.foldlM g t) := by
  induction xs generalizing s t with
  | nil => exact .ok h
  | cons a xs ih =>
    rw [List.foldlM_cons, List.foldlM_cons]
    exact (hstep s t a h).bind fun _ _ hnext => ih hnext

end SameOutcome

/-- What is found in a map is its entry. -/
theorem find_eq {κ ν : Type} [Ord κ] [Std.TransOrd κ] (m : Std.ExtTreeMap κ ν) (k : κ)
    (sought : Missing) : find m k sought = Store.answer sought (m.get? k) :=
  find_eq_answer (fun _ => by simp) k sought

/-- To append an output is to store it under the next number. -/
theorem appendOutput_eq (s : Memory) (amount : UInt64) (location : OutputLocation) :
    s.appendOutput amount location = s.insertOutput ⟨amount, s.outputCount amount⟩ location := by
  rw [appendOutput, insertOutput]
  dsimp only
  rw [if_neg (UInt64.lt_irrefl _)]

/-- To store a transaction before an output is numbered is to store it after. -/
theorem appendOutput_insertTransaction (s : Memory) (amount : UInt64) (location : OutputLocation)
    (hash : TxHash) (bytes : Bytes) :
    (s.insertTransaction hash bytes).appendOutput amount location =
      (s.appendOutput amount location).map fun s => s.insertTransaction hash bytes := by
  have hcount : (s.insertTransaction hash bytes).outputCount amount = s.outputCount amount := rfl
  rw [appendOutput, appendOutput, hcount]
  cases (addCounter (s.outputCount amount) 1 : Except (Halt StoreError) UInt64) <;> rfl

/-- To store a transaction before a list of outputs is numbered is to store it after. -/
theorem number_insertTransaction (s : Memory) (outputs : List (UInt64 × OutputLocation)) (hash : TxHash)
    (bytes : Bytes) : (s.insertTransaction hash bytes).number outputs =
      (s.number outputs).map fun s => s.insertTransaction hash bytes := by
  induction outputs generalizing s with
  | nil => rfl
  | cons entry rest ih =>
    obtain ⟨amount, location⟩ := entry
    rw [number, number, List.foldlM_cons, List.foldlM_cons]
    dsimp only
    rw [appendOutput_insertTransaction]
    cases s.appendOutput amount location with
    | error e => rfl
    | ok next => exact ih next

/-- To store a list of transactions before the outputs are numbered is to store it after. -/
theorem number_fill (s : Memory) (outputs : List (UInt64 × OutputLocation))
    (entries : List (TxHash × Bytes)) :
    (s.fill entries).number outputs = (s.number outputs).map fun s => s.fill entries := by
  induction entries generalizing s with
  | nil =>
    change s.number outputs = (s.number outputs).map id
    cases s.number outputs <;> rfl
  | cons entry rest ih =>
    change ((s.insertTransaction entry.1 entry.2).fill rest).number outputs = _
    rw [ih, number_insertTransaction]
    cases s.number outputs <;> rfl

/-- A block can be written with its transactions before its outputs, where writes do not fail. -/
theorem writeBlock_eq {s : Memory} (hwrites : s.failWrites = false) (w : BlockWrite) :
    s.writeBlock w = do
      let numbered ← (s.fill w.transactions).number w.outputs
      let written := numbered.insertBlock w.height w.hash w.bytes
      if UInt64.size ≤ written.heights.size then
        throw .overflow
      return written := by
  rw [writeBlock_eq_number, number_fill]
  cases s.number w.outputs with
  | error e => rfl
  | ok numbered =>
    simp only [hwrites]
    rfl

namespace Alike

variable {s : Memory} {t : Tables}

/-- A store in memory without entries is like tables without entries, whatever bookkeeping values there
are. -/
theorem empty (metadata : Std.ExtTreeMap String Bytes) (metadata' : Table) :
    Alike { metadata } { metadata := metadata' } where
  blocks _ := by simp
  heights _ := by simp
  size := rfl
  transactions _ := by simp
  outputs _ := by simp
  outputCounts _ := by simp [Tables.outputCount, outputCount]
  writes := rfl

/-- Storing a block keeps stores alike. -/
theorem insertBlock (h : Alike s t) (height : UInt64) (hash : BlockHash) (bytes : Bytes) :
    Alike (s.insertBlock height hash bytes) (t.insertBlock height hash bytes) where
  blocks := h.blocks.insert_get? Identifier.bytes_injective hash bytes
  heights := h.heights.insert_get? Tables.numberKey_injective height hash
  size := by
    have hthere : Tables.numberKey height ∈ t.blockHeights ↔ height ∈ s.heights := by
      rw [← Std.ExtTreeMap.isSome_getElem?_iff_mem, ← Std.ExtTreeMap.isSome_getElem?_iff_mem,
        h.heights height, Option.isSome_map, Std.ExtTreeMap.get?_eq_getElem?]
    change (t.blockHeights.insert _ _).size = (s.heights.insert _ _).size
    rw [Std.ExtTreeMap.size_insert, Std.ExtTreeMap.size_insert, h.size]
    simp only [Std.ExtTreeMap.contains_iff_mem, hthere]
  transactions := h.transactions
  outputs := h.outputs
  outputCounts := h.outputCounts
  writes := h.writes

/-- Storing a transaction keeps stores alike. -/
theorem insertTransaction (h : Alike s t) (hash : TxHash) (bytes : Bytes) :
    Alike (s.insertTransaction hash bytes) (t.insertTransaction hash bytes) :=
  { h with transactions := h.transactions.insert_get? Identifier.bytes_injective hash bytes }

/-- Raising the number of outputs of an amount with an output keeps stores alike. -/
theorem raise (h : Alike s t) (id : OutputId) (location : OutputLocation) (count : UInt64) :
    Alike { s with
        outputs := s.outputs.insert id location
        outputCounts := s.outputCounts.insert id.amount count }
      { t with
        outputs := t.outputs.insert (Tables.outputKey id) (Codec.encode location)
        outputCounts := t.outputCounts.insert (Tables.numberKey id.amount) (Tables.numberKey count) } :=
  { h with
    outputs := h.outputs.insert_get? Tables.outputKey_injective id location
    outputCounts := by
      intro amount
      rw [Tables.outputCount_insert, outputCount, getD_insert]
      split
      · rfl
      · exact h.outputCounts amount }

/-- Storing an output keeps stores alike. -/
theorem insertOutput (h : Alike s t) (id : OutputId) (location : OutputLocation) :
    SameOutcome (s.insertOutput id location) (t.insertOutput id location) := by
  -- The tables read the count after the output was stored, which does not change it.
  have hcount (outputs : Table) :
      Tables.outputCount { t with outputs } id.amount = .ok (s.outputCount id.amount) :=
    h.outputCounts id.amount
  unfold Memory.insertOutput Tables.insertOutput
  simp only [hcount]
  change SameOutcome (if _ then _ else _) (if _ then _ else _)
  split
  · exact .ok { h with outputs := h.outputs.insert_get? Tables.outputKey_injective id location }
  · exact .addCounter fun count => .ok (h.raise id location count)

/-- Appending an output keeps stores alike. -/
theorem appendOutput (h : Alike s t) (amount : UInt64) (location : OutputLocation) :
    SameOutcome (s.appendOutput amount location) ((t.appendOutput amount location).map Prod.snd) := by
  have happend : (t.appendOutput amount location).map Prod.snd =
      t.insertOutput ⟨amount, s.outputCount amount⟩ location := by
    rw [Tables.appendOutput, h.outputCounts]
    change Except.map _ (t.insertOutput _ _ >>= _) = _
    cases t.insertOutput ⟨amount, s.outputCount amount⟩ location <;> rfl
  rw [happend, appendOutput_eq]
  exact h.insertOutput _ _

/-- Storing a list of transactions keeps stores alike. -/
theorem fill (h : Alike s t) (entries : List (TxHash × Bytes)) : Alike (s.fill entries)
    (entries.foldl (fun t (hash, bytes) => t.insertTransaction hash bytes) t) := by
  induction entries generalizing s t with
  | nil => exact h
  | cons entry rest ih => exact ih (h.insertTransaction entry.1 entry.2)

/-- Writing a block keeps stores alike. -/
theorem writeBlock (h : Alike s t) (w : BlockWrite) : SameOutcome (s.writeBlock w) (t.writeBlock w) := by
  rw [writeBlock_eq h.writes, Tables.writeBlock]
  refine (SameOutcome.foldlM (fun _ _ entry h => h.appendOutput entry.1 entry.2) w.outputs
    (h.fill w.transactions)).bind ?_
  intro numbered numbered' hnumbered
  have hwritten := hnumbered.insertBlock w.height w.hash w.bytes
  dsimp only
  rw [hwritten.size]
  split
  · exact .overflow
  · exact .ok hwritten

/-- Stores that are alike find the same. -/
theorem agree (h : Alike s t) : Store.Agree s ({ tables := t } : Environment) where
  blockCount := congrArg (fun n => Except.ok (UInt64.ofNat n)) h.size
  blockHash height := (Environment.blockHash_eq_answer h.heights height).trans (find_eq _ _ _).symm
  block hash := (Environment.find_eq_answer_bytes h.blocks hash _).trans (find_eq _ _ _).symm
  transaction hash :=
    (Environment.find_eq_answer_bytes h.transactions hash _).trans (find_eq _ _ _).symm
  hasTransaction hash := congrArg Except.ok <|
    (Environment.contains_transactions h.transactions hash).trans
      Std.ExtTreeMap.contains_eq_isSome_getElem?.symm
  outputCount amount := mapError_eq_ok_iff.mpr (h.outputCounts amount)
  output id := (Environment.output_eq_answer h.outputs id).trans (find_eq _ _ _).symm

end Alike

end Memory

end RingDepth
