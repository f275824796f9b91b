import RingDepth.Proofs.Ledger.Confirmation
import RingDepth.Proofs.Trace.Ending
import RingDepth.Proofs.Trace.Work

/-!
# The statistics of a trace

A trace that gives a depth takes the transactions up to this distance from its levels, each of them once: those
at one distance make up one level, and no transaction is at two distances. So its statistics are the work for
these transactions and for the members of their rings, whatever the graph looks like.

Which transactions a search takes is told by a search that keeps a list of them, and is the same otherwise.
-/

namespace RingDepth.Trace

/-- Searches from a level on, and tells which transactions it took from the levels, in their order. -/
def searchTaking (r : Reader) (c : TraceConfig) (start : TxHash) :
    (fuel : ℕ) → (frontier met : Std.ExtTreeSet TxHash) → (depth : ℕ) → Traced (ℕ × List TxHash)
  | 0, _, _, depth => throw (.exhausted start depth)
  | fuel + 1, frontier, met, depth => do
    let level ← expandAll r c.ownerPolicy frontier.toList
    if level.minted then
      return (depth, frontier.toList)
    let next := unmet met level.owners
    if next.isEmpty then
      throw (.exhausted start depth)
    match exceeds c (depth + 1) with
    | some limit => throw (.depthLimit start limit)
    | none => do
      let (found, taken) ← searchTaking r c start fuel next (met.insertMany next.toList) (depth + 1)
      return (found, frontier.toList ++ taken)

/-- Whether some transactions are those at the distances from one to another, each of them once. -/
structure TakenBetween (r : Reader) (policy : OwnerPolicy) (start : TxHash) (first last : ℕ)
    (taken : List TxHash) : Prop where
  nodup : taken.Nodup
  mem_iff : ∀ hash, hash ∈ taken ↔ ∃ n, first ≤ n ∧ n ≤ last ∧ AtDistance r policy start n hash

/-- What the statistics of a trace count: the transactions that it took, as they were read, and for each member
of their rings the listed transactions that the search for its owner fetched. -/
structure Counts (r : Reader) (c : TraceConfig) (outcome : TraceOutcome) (taken : List TxHash)
    (ts : List Transaction) (scans : List ℕ) : Prop where
  nodup : taken.Nodup
  mem_iff : ∀ hash, hash ∈ taken ↔ ∃ n ≤ outcome.depth, AtDistance r c.ownerPolicy outcome.start n hash
  read : List.Forall₂ (fun hash t => r.transaction hash = .ok (some t)) taken ts
  looked : List.Forall₂ (fun id scan => Scans r id c.ownerPolicy scan) (ts.flatMap Transaction.ringMembers) scans
  size : (ts.flatMap Transaction.ringMembers).length = (ts.map Transaction.ringSize).sum
  resolved : outcome.work.resolved = (ts.map Transaction.ringSize).sum
  scanned : outcome.work.scanned = (ts.map Transaction.ringSize).sum
  fetched : outcome.work.fetched = taken.length + scans.sum

variable {r : Reader} {c : TraceConfig} {start : TxHash} {policy : OwnerPolicy} {fuel depth first last found : ℕ}
  {frontier met : Std.ExtTreeSet TxHash} {taken : List TxHash} {w : Work}

/-- But for the list of what it took, a search that keeps one is the search. -/
theorem map_searchTaking (r : Reader) (c : TraceConfig) (start : TxHash) (fuel : ℕ)
    (frontier met : Std.ExtTreeSet TxHash) (depth : ℕ) :
    Prod.fst <$> searchTaking r c start fuel frontier met depth = search r c start fuel frontier met depth := by
  induction fuel generalizing frontier met depth with
  | zero => rfl
  | succ fuel ih =>
    rw [searchTaking, search, map_bind]
    congr 1
    funext level
    split
    · rw [map_pure]
    · dsimp only
      split
      · rfl
      · cases exceeds c (depth + 1) with
        | some limit => rfl
        | none =>
          dsimp only
          rw [← ih, map_bind, map_eq_pure_bind]
          simp only [map_pure]

/-- A search that gives a depth gives it with the list too, and with the same work. -/
theorem exists_searchTaking (h : search r c start fuel frontier met depth = .ok (found, w)) :
    ∃ taken, searchTaking r c start fuel frontier met depth = .ok ((found, taken), w) := by
  rw [← map_searchTaking, map_eq_pure_bind, Traced.bind_eq_ok_iff] at h
  obtain ⟨⟨_, taken⟩, v, u, hsearch, hpure, rfl⟩ := h
  obtain ⟨rfl, rfl⟩ := Traced.pure_eq_ok_iff.mp hpure
  rw [Work.add_zero]
  exact ⟨taken, hsearch⟩

namespace TakenBetween

/-- A level is the transactions at its distance. -/
theorem of_level (h : Level r policy start depth frontier met) :
    TakenBetween r policy start depth depth frontier.toList where
  nodup := by
    refine frontier.distinct_toList.imp fun hdistinct hsame => ?_
    subst hsame
    exact hdistinct Std.ReflCmp.compare_self
  mem_iff hash := by
    rw [Std.ExtTreeSet.mem_toList, h.mem_frontier]
    constructor
    · exact fun hat => ⟨depth, le_rfl, le_rfl, hat⟩
    · rintro ⟨n, hfirst, hlast, hat⟩
      obtain rfl : n = depth := by omega
      exact hat

/-- Transactions at one distance and those at greater ones are those at all of these distances. -/
theorem append {level : List TxHash} (h : TakenBetween r policy start first first level)
    (hrest : TakenBetween r policy start (first + 1) last taken) (hle : first ≤ last) :
    TakenBetween r policy start first last (level ++ taken) where
  nodup := by
    refine List.nodup_append.mpr ⟨h.nodup, hrest.nodup, fun hash hhash other hother hsame => ?_⟩
    subst hsame
    obtain ⟨n, hn, hn', hat⟩ := (h.mem_iff hash).mp hhash
    obtain ⟨m, hm, -, hother⟩ := (hrest.mem_iff hash).mp hother
    have := hat.unique hother
    omega
  mem_iff hash := by
    rw [List.mem_append, h.mem_iff, hrest.mem_iff]
    constructor
    · rintro (⟨n, hn, hn', hat⟩ | ⟨n, hn, hn', hat⟩)
      · exact ⟨n, hn, by omega, hat⟩
      · exact ⟨n, by omega, hn', hat⟩
    · rintro ⟨n, hn, hn', hat⟩
      rcases Nat.eq_or_lt_of_le hn with rfl | hlt
      · exact .inl ⟨_, le_rfl, le_rfl, hat⟩
      · exact .inr ⟨n, hlt, hn', hat⟩

end TakenBetween

/-- From a level on, a search takes the transactions from this distance to the depth that it gives, each of them
once, and its work is that of expanding them. -/
theorem searchTaking_spec (hlevel : Level r c.ownerPolicy start depth frontier met)
    (h : searchTaking r c start fuel frontier met depth = .ok ((found, taken), w)) :
    depth ≤ found ∧ TakenBetween r c.ownerPolicy start depth found taken ∧
      ∃ ts, Expands r c.ownerPolicy taken ts w := by
  -- What the induction carries along is that the frontier is the level at this distance.
  induction fuel generalizing depth frontier met taken w with
  | zero => cases h
  | succ fuel ih =>
    obtain ⟨x, v, u, hx, hrest, rfl⟩ := Traced.bind_eq_ok_iff.mp h
    obtain ⟨ts, hexpands⟩ := work_expandAll hx
    have hresult : (expandAll r c.ownerPolicy frontier.toList).result = .ok x := by
      rw [hx]
      rfl
    have hhere := TakenBetween.of_level hlevel
    split at hrest
    · obtain ⟨hend, rfl⟩ := Traced.pure_eq_ok_iff.mp hrest
      obtain ⟨rfl, rfl⟩ := Prod.mk.inj hend
      rw [Work.add_zero]
      exact ⟨le_rfl, hhere, ts, hexpands⟩
    · rename_i hmint
      dsimp only at hrest
      split at hrest
      · cases hrest
      · split at hrest
        · cases hrest
        · obtain ⟨⟨found', later⟩, u', _, hsearch, hend, rfl⟩ := Traced.bind_eq_ok_iff.mp hrest
          obtain ⟨hsame, rfl⟩ := Traced.pure_eq_ok_iff.mp hend
          obtain ⟨rfl, rfl⟩ := Prod.mk.inj hsame
          have hnext := hlevel.next hresult (Bool.eq_false_of_not_eq_true hmint)
          obtain ⟨hle, hlater, us, hus⟩ := ih hnext hsearch
          rw [Work.add_zero]
          exact ⟨by omega, hhere.append hlater (by omega), ts ++ us, hexpands.append hus⟩

/-- The statistics of a trace that gives a depth count the work exactly. Each transaction at this distance or a
smaller one was taken from a level once. The outputs that were resolved, and the blocks that were scanned, are
the members of the rings of these transactions up to their first inputs that mint. The transactions that were
fetched are these, and for each member of a ring the listed ones up to the first owner, none if the reward has
the key, or all of them if two owners are rejected. -/
theorem trace_counts {outcome : TraceOutcome} (h : trace r c start = .ok outcome) :
    ∃ taken ts scans,
      searchTaking r c start hashCount (.ofList [start]) (.ofList [start]) 0 =
        .ok ((outcome.depth, taken), outcome.work) ∧
      Counts r c outcome taken ts scans := by
  obtain ⟨⟨found, work⟩, hsearch, rfl⟩ := map_eq_ok_iff.mp h
  obtain ⟨taken, htaking⟩ := exists_searchTaking hsearch
  obtain ⟨-, ⟨hnodup, hmem⟩, ts, hread, hsize, _, ⟨scans, hscans, rfl⟩, rfl⟩ :=
    searchTaking_spec level_start htaking
  refine ⟨taken, ts, scans, htaking, hnodup, fun hash => ?_, hread, hscans, hsize, ?_, ?_, rfl⟩
  · rw [hmem hash]
    simp only [Nat.zero_le, true_and]
  · rw [← hsize]
    exact Nat.zero_add _
  · rw [← hsize]
    exact Nat.zero_add _

/-- A transaction that spends the reward of the first block, and whose output has a key that no reward has. -/
def paying : Transaction := .new 0 [.keyed 5 [0] .zero] [⟨9, .ofContent []⟩] []

/-- A transaction that spends this output. -/
def relayed : Transaction := .new 0 [.keyed 9 [0] .zero] [] []

/-- The history of a store in memory whose second block confirms both, the later one first. -/
def relayedHistory : History Memory :=
  Ledger.run { store := {} } [.append lower,
    .append ⟨blockOf 1 lower.block.hash [relayed.hash, paying.hash], [relayed, paying]⟩]

/-- A trace of two steps fetches three transactions for its levels, and two of the second block until it comes to
the first owner. -/
theorem trace_counts_relayed :
    let r := Reader.ofStore relayedHistory.ledger.store
    let outcome : TraceOutcome := { start := relayed.hash, depth := 2, work := ⟨5, 2, 2⟩ }
    trace r {} relayed.hash = .ok outcome ∧ ∃ taken ts scans,
      searchTaking r {} relayed.hash hashCount (.ofList [relayed.hash]) (.ofList [relayed.hash]) 0 =
        .ok ((2, taken), ⟨5, 2, 2⟩) ∧
      Counts r {} outcome taken ts scans := by
  intro r outcome
  have htrace : trace r {} relayed.hash = .ok outcome := by decide +kernel
  exact ⟨htrace, trace_counts htrace⟩

end RingDepth.Trace
