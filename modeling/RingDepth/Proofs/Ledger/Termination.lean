import RingDepth.Proofs.Ledger.Stability
import RingDepth.Proofs.Trace.Ending

/-!
# Traces end within the stored transactions

A trace passes a level only after it fetched all transactions of the level, and no transaction is at two
levels. So it passes no more levels than there are entries in the table of transactions. Nothing is asked
of the store: its tables may hold any bytes under any keys, and transactions may lead to themselves or to
hashes under which there is nothing.
-/

namespace RingDepth

/-- A reader fetches transactions under this number of hashes at most. -/
def Reader.FetchesAtMost (r : Reader) (entries : ℕ) : Prop :=
  ∀ hashes : Finset TxHash, (∀ hash ∈ hashes, ∃ t, r.transaction hash = .ok (some t)) →
    hashes.card ≤ entries

namespace Trace

/-- A trace ends as its search does, after passing as many levels as there are entries at most. A depth at
which it is found or lost is less than the number of entries. -/
structure EndsWithin (r : Reader) (c : TraceConfig) (start : TxHash) (entries : ℕ) : Prop where
  ends : ∃ depth ≤ entries, ∃ how, TraceEnds r c start depth how ∧
    (trace r c start).map TraceOutcome.depth = how.result start depth
  found : ∀ outcome, trace r c start = .ok outcome → outcome.depth + 1 ≤ entries
  exhausted : ∀ origin depth, trace r c start = .error (.exhausted origin depth) → depth + 1 ≤ entries

variable {r : Reader} {c : TraceConfig} {start : TxHash} {policy : OwnerPolicy} {entries : ℕ}

/-- If all transactions up to a distance can be expanded, there are entries for as many and one more. -/
theorem AtDistance.lt_entries (hentries : r.FetchesAtMost entries) {n : ℕ} {hash : TxHash}
    (h : AtDistance r policy start n hash)
    (hall : ∀ m ≤ n, ∀ hash, AtDistance r policy start m hash → Expandable r policy hash) :
    n + 1 ≤ entries := by
  obtain ⟨nearer, hcard, hnear⟩ := h.exists_finset
  rw [← hcard]
  apply hentries
  intro hash hhash
  obtain ⟨m, hm, hat⟩ := hnear hash hhash
  obtain ⟨t, ht, -⟩ := hall m hm hash hat
  exact ⟨t, ht⟩

/-- The levels before the one at which a trace ends are no more than the entries. -/
theorem TraceEnds.le_entries (hentries : r.FetchesAtMost entries) {depth : ℕ} {how : SearchEnd}
    (h : TraceEnds r c start depth how) : depth ≤ entries := by
  obtain ⟨⟨hash, hhash⟩, _, _, hlevel, -⟩ := h.exists_level
  cases depth with
  | zero => omega
  | succ depth =>
    obtain ⟨previous, hprevious⟩ := hhash.exists_of_le (Nat.le_succ depth)
    apply hprevious.lt_entries hentries
    intro m hm other hat
    exact (hlevel.passed m (Nat.lt_succ_of_le hm) other hat).1

/-- If all transactions of that level were expanded as well, there is an entry for it too. -/
theorem TraceEnds.lt_entries (hentries : r.FetchesAtMost entries) {depth : ℕ} {how : SearchEnd}
    (h : TraceEnds r c start depth how) (hhow : ∀ e, how ≠ .failed e) : depth + 1 ≤ entries := by
  obtain ⟨⟨hash, hhash⟩, last, before, hlevel, hends⟩ := h.exists_level
  have hexpanded : ∃ x, (expandAll r c.ownerPolicy last.toList).result = .ok x := by
    cases hends with
    | failed he => exact absurd rfl (hhow _)
    | minted hx _ => exact ⟨_, hx⟩
    | exhausted hx _ _ => exact ⟨_, hx⟩
    | limited hx _ _ _ => exact ⟨_, hx⟩
  apply hhash.lt_entries hentries
  intro m hm other hat
  obtain hlt | rfl := Nat.lt_or_eq_of_le hm
  · exact (hlevel.passed m hlt other hat).1
  · exact hlevel.exists_expanded_iff.mp hexpanded other hat

/-- A trace ends within the transactions that can be fetched. -/
theorem endsWithin (hentries : r.FetchesAtMost entries) (c : TraceConfig) (start : TxHash) :
    EndsWithin r c start entries := by
  obtain ⟨depth, how, hends⟩ := exists_traceEnds r c start
  refine ⟨⟨depth, hends.le_entries hentries, how, hends, hends.map_depth⟩, ?found, ?exhausted⟩
  case found =>
    intro outcome htrace
    apply (traceEnds_of_ok htrace).lt_entries hentries
    simp
  case exhausted =>
    intro origin found htrace
    apply (traceEnds_of_exhausted htrace).2.lt_entries hentries
    simp

end Trace

/-- Different keys of a table are no more than its entries. -/
theorem card_le_size {κ ν : Type} [Ord κ] [Std.TransOrd κ] [Std.LawfulEqOrd κ] [DecidableEq κ]
    {table : Std.ExtTreeMap κ ν} {key : TxHash → κ} (hkey : Function.Injective key)
    {hashes : Finset TxHash} (h : ∀ hash ∈ hashes, key hash ∈ table) :
    hashes.card ≤ table.size := by
  calc hashes.card
      ≤ table.keys.toFinset.card := by
        apply Finset.card_le_card_of_injOn key
        · intro hash hhash
          simpa using h hash hhash
        · exact hkey.injOn
    _ ≤ table.keys.length := List.toFinset_card_le _
    _ = table.size := Std.ExtTreeMap.length_keys

/-- A store fetches no more transactions than it has entries under their hashes. -/
theorem Reader.fetchesAtMost_of_getElem? {σ κ : Type} [Store σ] [Ord κ] [Std.TransOrd κ]
    [Std.LawfulEqOrd κ] [DecidableEq κ] {s : σ} {table : Std.ExtTreeMap κ Bytes}
    {key : TxHash → κ} (hkey : Function.Injective key)
    (h : ∀ {hash bytes}, Store.transaction s hash = .ok bytes → table[key hash]? = some bytes) :
    (ofStore s).FetchesAtMost table.size := by
  intro hashes hfetched
  apply card_le_size hkey
  intro hash hhash
  obtain ⟨t, ht⟩ := hfetched hash hhash
  obtain ⟨bytes, hbytes, -⟩ := decoded_found_eq_ok_some_iff.mp ht
  rw [Std.ExtTreeMap.mem_iff_isSome_getElem?, h hbytes]
  rfl

/-- A store in memory fetches no more transactions than it has. -/
theorem Memory.fetchesAtMost (s : Memory) :
    (Reader.ofStore s).FetchesAtMost s.transactions.size := by
  apply Reader.fetchesAtMost_of_getElem? Function.injective_id
  intro hash bytes hbytes
  change find s.transactions hash _ = _ at hbytes
  unfold find at hbytes
  split at hbytes
  · cases hbytes
    assumption
  · cases hbytes

/-- An environment fetches no more transactions than its table has. -/
theorem Environment.fetchesAtMost (e : Environment) :
    (Reader.ofStore e).FetchesAtMost e.tables.transactions.size := by
  apply Reader.fetchesAtMost_of_getElem? Identifier.bytes_injective
  intro hash bytes hbytes
  change find e.tables.transactions hash.bytes _ = _ at hbytes
  unfold find at hbytes
  split at hbytes
  · cases hbytes
    assumption
  · cases hbytes

/-- Over every store a trace ends, whatever the tables hold. It passes no more levels than there are
entries in the table of transactions, and a depth that it finds, or at which it is lost, is less than
their number. -/
theorem trace_endsWithin_transactions (c : TraceConfig) (start : TxHash) :
    (∀ s : Memory, Trace.EndsWithin (Reader.ofStore s) c start s.transactions.size) ∧
    (∀ e : Environment, Trace.EndsWithin (Reader.ofStore e) c start e.tables.transactions.size) ∧
    ∀ m : MappedEnvironment,
      Trace.EndsWithin (Reader.ofStore m) c start m.environment.tables.transactions.size :=
  ⟨fun s => Trace.endsWithin s.fetchesAtMost c start,
    fun e => Trace.endsWithin e.fetchesAtMost c start,
    fun m => Trace.endsWithin m.environment.fetchesAtMost c start⟩

end RingDepth
