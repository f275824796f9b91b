import Mathlib.Data.Finset.Card
import RingDepth.Proofs.Bytes
import RingDepth.Proofs.Trace.Graph

/-!
# Levels of a search are distances

Before the level at depth `k` is expanded, the frontier holds exactly the transactions at distance `k`
from the start, and those that were met are exactly the ones at distance at most `k`. An owner that was
met before has a shorter walk, so leaving it out loses nothing, on graphs with cycles too.

The search is given as many levels as there are hashes. Each level but the last meets a new hash, so
the levels never run out before the hashes do.
-/

namespace RingDepth.Trace

variable (r : Reader) (policy : OwnerPolicy) (start : TxHash)

/-- Transactions that a number of edges lead to from the start. -/
inductive Walk : ℕ → TxHash → Prop
  | start : Walk 0 start
  | step {n : ℕ} {hash owner : TxHash} :
    Walk n hash → LeadsTo r policy hash owner → Walk (n + 1) owner

/-- Transactions that a number of edges lead to, and no smaller number. -/
def AtDistance (n : ℕ) (hash : TxHash) : Prop :=
  Walk r policy start n hash ∧ ∀ m < n, ¬Walk r policy start m hash

/-- A depth at which the nearest transaction that mints is met: one at this distance mints, none at a smaller
one does, and all up to this distance can be expanded. -/
structure NearestMint (depth : ℕ) : Prop where
  mints : ∃ hash, AtDistance r policy start depth hash ∧ Mints r hash
  none_nearer : ∀ n < depth, ∀ hash, AtDistance r policy start n hash → ¬Mints r hash
  expandable : ∀ n ≤ depth, ∀ hash, AtDistance r policy start n hash → Expandable r policy hash

/-- What the search knows at the beginning of a level: the frontier is the set of transactions at this
distance, those that were met are at this one or a smaller one, and none before ended the search. -/
structure Level (depth : ℕ) (frontier met : Std.ExtTreeSet TxHash) : Prop where
  mem_frontier : ∀ hash, hash ∈ frontier ↔ AtDistance r policy start depth hash
  mem_met : ∀ hash, hash ∈ met ↔ ∃ n ≤ depth, Walk r policy start n hash
  passed : ∀ n < depth, ∀ hash, AtDistance r policy start n hash →
    Expandable r policy hash ∧ ¬Mints r hash

variable {r policy start}

/-- Only the start is at distance zero. -/
theorem atDistance_zero_iff {hash : TxHash} : AtDistance r policy start 0 hash ↔ hash = start := by
  refine ⟨fun hleft => ?_, fun hright => ?_⟩
  · obtain ⟨⟨⟩, -⟩ := hleft
    rfl
  · obtain rfl := hright
    exact ⟨.start, fun m hm => absurd hm (Nat.not_lt_zero m)⟩

/-- The last edge of a shortest walk leaves a transaction one step nearer. -/
theorem AtDistance.pred {n : ℕ} {owner : TxHash} (h : AtDistance r policy start (n + 1) owner) :
    ∃ hash, AtDistance r policy start n hash ∧ LeadsTo r policy hash owner := by
  obtain ⟨hwalk, hshortest⟩ := h
  cases hwalk with
  | @step _ hash _ hwalk hedge =>
    refine ⟨hash, ⟨hwalk, fun m hm hshort => ?_⟩, hedge⟩
    exact hshortest (m + 1) (by omega) (hshort.step hedge)

/-- Every smaller distance is taken on the way to a transaction. -/
theorem AtDistance.exists_of_le {m n : ℕ} (hmn : m ≤ n) {hash : TxHash}
    (h : AtDistance r policy start n hash) : ∃ hash', AtDistance r policy start m hash' := by
  induction n generalizing hash with
  | zero =>
    obtain rfl : m = 0 := by omega
    exact ⟨hash, h⟩
  | succ n ih =>
    rcases Nat.lt_or_eq_of_le hmn with hlt | rfl
    · obtain ⟨previous, hprevious, -⟩ := h.pred
      exact ih (by omega) hprevious
    · exact ⟨hash, h⟩

/-- A search begins with the start alone. -/
theorem level_start :
    Level r policy start 0 (Std.ExtTreeSet.ofList [start]) (Std.ExtTreeSet.ofList [start]) where
  mem_frontier hash := by
    rw [Std.ExtTreeSet.mem_ofList, List.contains_iff_mem, List.mem_singleton, atDistance_zero_iff]
  mem_met hash := by
    rw [Std.ExtTreeSet.mem_ofList, List.contains_iff_mem, List.mem_singleton]
    refine ⟨fun hleft => ?_, fun hright => ?_⟩
    · obtain rfl := hleft
      exact ⟨0, le_rfl, .start⟩
    · obtain ⟨n, hn, hwalk⟩ := hright
      obtain rfl : n = 0 := by omega
      cases hwalk
      rfl
  passed n hn := absurd hn (Nat.not_lt_zero n)

/-- Being new means being an owner and not being met. -/
theorem mem_unmet {met : Std.ExtTreeSet TxHash} {owners : List TxHash} {hash : TxHash} :
    hash ∈ unmet met owners ↔ hash ∈ owners ∧ hash ∉ met := by
  simp [unmet, ← Std.ExtTreeSet.contains_iff_mem]

/-- Meeting the new owners adds exactly these. -/
theorem mem_insertMany_unmet {met : Std.ExtTreeSet TxHash} {owners : List TxHash} {hash : TxHash} :
    hash ∈ met.insertMany (unmet met owners).toList ↔ hash ∈ met ∨ hash ∈ unmet met owners := by
  simp [Std.ExtTreeSet.mem_insertMany_list]

/-- The transactions one step further are the owners that were not met before. -/
theorem Level.mem_unmet_iff {depth : ℕ} {frontier met : Std.ExtTreeSet TxHash} {x : Expansion}
    (h : Level r policy start depth frontier met)
    (hx : (expandAll r policy frontier.toList).result = .ok x) (owner : TxHash) :
    owner ∈ unmet met x.owners ↔ AtDistance r policy start (depth + 1) owner := by
  rw [mem_unmet, (expandAll_spec hx).2, h.mem_met]
  refine ⟨fun hleft => ?_, fun howner => ?_⟩
  · obtain ⟨⟨hash, hhash, hedge⟩, hnew⟩ := hleft
    obtain ⟨hwalk, -⟩ := (h.mem_frontier hash).mp (Std.ExtTreeSet.mem_toList.mp hhash)
    exact ⟨hwalk.step hedge, fun m hm hshort => hnew ⟨m, by omega, hshort⟩⟩
  · obtain ⟨hash, hhash, hedge⟩ := howner.pred
    refine ⟨⟨hash, Std.ExtTreeSet.mem_toList.mpr ((h.mem_frontier hash).mpr hhash), hedge⟩, ?_⟩
    intro hmet
    obtain ⟨m, hm, hshort⟩ := hmet
    exact howner.2 m (by omega) hshort

/-- Expanding a level without one that mints leads to the next level. -/
theorem Level.next {depth : ℕ} {frontier met : Std.ExtTreeSet TxHash} {x : Expansion}
    (h : Level r policy start depth frontier met)
    (hx : (expandAll r policy frontier.toList).result = .ok x) (hmint : x.minted = false) :
    Level r policy start (depth + 1) (unmet met x.owners)
      (met.insertMany (unmet met x.owners).toList) where
  mem_frontier := h.mem_unmet_iff hx
  mem_met owner := by
    rw [mem_insertMany_unmet, h.mem_unmet_iff hx, h.mem_met]
    refine ⟨fun hleft => ?_, fun hright => ?_⟩
    · obtain ⟨n, hn, hwalk⟩ | ⟨hwalk, -⟩ := hleft
      · exact ⟨n, by omega, hwalk⟩
      · exact ⟨depth + 1, le_rfl, hwalk⟩
    · obtain ⟨n, hn, hwalk⟩ := hright
      by_cases hshort : ∃ m ≤ depth, Walk r policy start m owner
      · exact .inl hshort
      · rcases Nat.lt_or_eq_of_le hn with hlt | rfl
        · exact absurd ⟨n, by omega, hwalk⟩ hshort
        · exact .inr ⟨hwalk, fun m hm hm' => hshort ⟨m, by omega, hm'⟩⟩
  passed n hn hash hhash := by
    rcases Nat.lt_or_eq_of_le (Nat.le_of_lt_succ hn) with hlt | rfl
    · exact h.passed n hlt hash hhash
    · have hmem : hash ∈ frontier.toList :=
        Std.ExtTreeSet.mem_toList.mpr ((h.mem_frontier hash).mpr hhash)
      refine ⟨exists_result_expandAll_iff.mp ⟨x, hx⟩ hash hmem, fun hminted => ?_⟩
      exact Bool.false_ne_true (hmint.symm.trans ((expandAll_spec hx).1.mpr ⟨hash, hmem, hminted⟩))

/-- What was met without one that mints is nearer than the nearest one. -/
theorem Level.le_of_nearestMint {depth d : ℕ} {frontier met : Std.ExtTreeSet TxHash}
    (h : Level r policy start depth frontier met) (hd : NearestMint r policy start d) :
    depth ≤ d := by
  obtain ⟨hash, hhash, hmint⟩ := hd.mints
  by_contra hlt
  exact (h.passed d (by omega) hash hhash).2 hmint

/-- The hashes in a set. -/
def members (s : Std.ExtTreeSet TxHash) : Finset TxHash := s.toList.toFinset

/-- Membership is that of the set. -/
@[simp] theorem mem_members {s : Std.ExtTreeSet TxHash} {hash : TxHash} :
    hash ∈ members s ↔ hash ∈ s := by
  simp [members]

/-- A set of hashes has at most as many elements as there are hashes. -/
theorem card_le_hashCount (s : Finset TxHash) : s.card ≤ hashCount := by
  rw [← Finset.card_range hashCount]
  refine Finset.card_le_card_of_injOn (fun hash => Bytes.ofLittleEndian hash.bytes) ?_ ?_
  · intro hash _
    have h := Bytes.ofLittleEndian_lt hash.bytes
    rw [hash.length_bytes] at h
    exact Finset.mem_coe.mpr (Finset.mem_range.mpr h)
  · intro x _ y _ hxy
    have h := congrArg (Bytes.littleEndian 32) hxy
    simp only at h
    rw [← x.length_bytes, Bytes.littleEndian_ofLittleEndian, x.length_bytes, ← y.length_bytes,
      Bytes.littleEndian_ofLittleEndian] at h
    exact Identifier.ext h

/-- Meeting new hashes makes the set of those that were met larger. -/
theorem card_members_lt {met : Std.ExtTreeSet TxHash} {owners : List TxHash}
    (h : (unmet met owners).isEmpty = false) :
    (members met).card < (members (met.insertMany (unmet met owners).toList)).card := by
  apply Finset.card_lt_card
  rw [Finset.ssubset_iff_of_subset]
  · rw [← Std.ExtTreeSet.isEmpty_toList, List.isEmpty_eq_false_iff] at h
    obtain ⟨hash, hhash⟩ := List.exists_mem_of_ne_nil _ h
    rw [Std.ExtTreeSet.mem_toList] at hhash
    exact ⟨hash, by simp [hhash], by simpa using (mem_unmet.mp hhash).2⟩
  · intro hash hhash
    rw [mem_members] at hhash ⊢
    exact mem_insertMany_unmet.mpr (.inl hhash)

/-- Expanding a level that has been reached fails only if the level holds a transaction that cannot be
expanded, and then no depth is the nearest one. -/
theorem Level.exists_result_expandAll {depth d : ℕ} {frontier met : Std.ExtTreeSet TxHash}
    (h : Level r policy start depth frontier met) (hd : NearestMint r policy start d) :
    ∃ x, (expandAll r policy frontier.toList).result = .ok x := by
  refine exists_result_expandAll_iff.mpr fun hash hhash => ?_
  exact hd.expandable depth (h.le_of_nearestMint hd) hash
    ((h.mem_frontier hash).mp (Std.ExtTreeSet.mem_toList.mp hhash))

/-- A level holds a transaction that mints exactly when its depth is the nearest one. -/
theorem Level.minted_iff {depth : ℕ} {frontier met : Std.ExtTreeSet TxHash} {x : Expansion}
    (h : Level r policy start depth frontier met)
    (hx : (expandAll r policy frontier.toList).result = .ok x) :
    x.minted = true ↔ NearestMint r policy start depth := by
  rw [(expandAll_spec hx).1]
  refine ⟨fun hleft => ?_, fun hd => ?_⟩
  · obtain ⟨hash, hhash, hmint⟩ := hleft
    refine ⟨⟨hash, (h.mem_frontier hash).mp (Std.ExtTreeSet.mem_toList.mp hhash), hmint⟩,
      fun n hn hash hhash => (h.passed n hn hash hhash).2, fun n hn hash hhash => ?_⟩
    rcases Nat.lt_or_eq_of_le hn with hlt | rfl
    · exact (h.passed n hlt hash hhash).1
    · exact exists_result_expandAll_iff.mp ⟨x, hx⟩ hash
        (Std.ExtTreeSet.mem_toList.mpr ((h.mem_frontier hash).mpr hhash))
  · obtain ⟨hash, hhash, hmint⟩ := hd.mints
    exact ⟨hash, Std.ExtTreeSet.mem_toList.mpr ((h.mem_frontier hash).mpr hhash), hmint⟩

/-- A transaction that mints beyond a level leaves something new to look at after it. -/
theorem Level.unmet_nonempty {depth d : ℕ} {frontier met : Std.ExtTreeSet TxHash} {x : Expansion}
    (h : Level r policy start depth frontier met)
    (hx : (expandAll r policy frontier.toList).result = .ok x)
    (hd : NearestMint r policy start d) (hlt : depth < d) :
    (unmet met x.owners).isEmpty = false := by
  obtain ⟨hash, hhash, -⟩ := hd.mints
  obtain ⟨next, hnext⟩ := hhash.exists_of_le hlt
  rw [Std.ExtTreeSet.isEmpty_eq_false_iff]
  intro hempty
  have hmem := (h.mem_unmet_iff hx next).mpr hnext
  rw [hempty] at hmem
  exact Std.ExtTreeSet.not_mem_empty hmem

/-- From any level on, the search without a limit gives exactly the depth of the nearest transaction
that mints, provided that it has levels left for all hashes that were not met. -/
theorem result_search_eq_ok_iff {c : TraceConfig} (hlimit : c.maxDepth = none) {fuel depth d : ℕ}
    {frontier met : Std.ExtTreeSet TxHash}
    (h : Level r c.ownerPolicy start depth frontier met)
    (hfuel : hashCount < (members met).card + fuel) :
    (search r c start fuel frontier met depth).result = .ok d ↔
      NearestMint r c.ownerPolicy start d := by
  induction fuel generalizing depth frontier met with
  | zero => exact absurd (card_le_hashCount (members met)) (by omega)
  | succ fuel ih =>
    rw [search, Traced.result_bind_eq_ok]
    refine ⟨fun hleft => ?_, fun hd => ?_⟩
    · obtain ⟨x, hx, hrest⟩ := hleft
      split at hrest
      · rename_i hmint
        obtain rfl : depth = d := Except.ok.inj hrest
        exact (h.minted_iff hx).mp hmint
      · rename_i hmint
        simp only [exceeds, hlimit, Option.filter_none] at hrest
        split at hrest
        · cases hrest
        · rename_i hnew
          rw [Bool.not_eq_true] at hmint hnew
          refine (ih (h.next hx hmint) ?_).mp hrest
          -- The level met a new hash, so one level fewer is still enough for the others.
          have := card_members_lt hnew
          omega
    · obtain ⟨x, hx⟩ := h.exists_result_expandAll hd
      refine ⟨x, hx, ?_⟩
      rcases Nat.lt_or_eq_of_le (h.le_of_nearestMint hd) with hlt | rfl
      · have hnew := h.unmet_nonempty hx hd hlt
        have hmint : x.minted = false := by
          rw [← Bool.not_eq_true, h.minted_iff hx]
          intro hnearer
          obtain ⟨hash, hhash, hmints⟩ := hnearer.mints
          exact hd.none_nearer depth hlt hash hhash hmints
        simp only [hmint, hnew, exceeds, hlimit, Option.filter_none, Bool.false_eq_true, if_false]
        refine (ih (h.next hx hmint) ?_).mpr hd
        have := card_members_lt hnew
        omega
      · rw [if_pos ((h.minted_iff hx).mpr hd)]
        rfl

/-- A trace gives the depth that its search gives, with the work that the search took. -/
theorem exists_trace_eq_ok_iff {c : TraceConfig} {depth : ℕ} :
    (∃ work, trace r c start = .ok { start, depth, work }) ↔
      (search r c start hashCount (Std.ExtTreeSet.ofList [start]) (Std.ExtTreeSet.ofList [start])
        0).result = .ok depth := by
  unfold trace Traced.result
  dsimp only
  cases search r c start hashCount (Std.ExtTreeSet.ofList [start])
    (Std.ExtTreeSet.ofList [start]) 0 with
  | error e => simp [Except.map]
  | ok found => simp [Except.map]

/-- A trace without a limit gives a depth exactly when some transaction that mints is at this distance
from the start, none is nearer, and all transactions up to this distance can be expanded. -/
theorem trace_eq_ok_iff_nearestMint (r : Reader) (c : TraceConfig) (start : TxHash) (depth : ℕ) :
    (∃ work, trace r { c with maxDepth := none } start = .ok { start, depth, work }) ↔
      (∃ hash, AtDistance r c.ownerPolicy start depth hash ∧ Mints r hash) ∧
        (∀ n < depth, ∀ hash, AtDistance r c.ownerPolicy start n hash → ¬Mints r hash) ∧
        ∀ n ≤ depth, ∀ hash, AtDistance r c.ownerPolicy start n hash →
          Expandable r c.ownerPolicy hash := by
  have hsize : (members (Std.ExtTreeSet.ofList [start])).card = 1 := by
    refine Finset.card_eq_one.mpr ⟨start, Finset.ext fun hash => ?_⟩
    rw [mem_members, Std.ExtTreeSet.mem_ofList, List.contains_iff_mem, List.mem_singleton,
      Finset.mem_singleton]
  have hsearch : (search r { c with maxDepth := none } start hashCount
      (Std.ExtTreeSet.ofList [start]) (Std.ExtTreeSet.ofList [start]) 0).result = .ok depth ↔
        NearestMint r c.ownerPolicy start depth :=
    result_search_eq_ok_iff rfl level_start (by omega)
  have hparts : NearestMint r c.ownerPolicy start depth ↔ _ ∧ _ ∧ _ :=
    ⟨fun h => ⟨h.mints, h.none_nearer, h.expandable⟩, fun ⟨h₁, h₂, h₃⟩ => ⟨h₁, h₂, h₃⟩⟩
  rw [← hparts, ← hsearch, exists_trace_eq_ok_iff]

end RingDepth.Trace
