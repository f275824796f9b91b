import Mathlib.Data.Fintype.Card
import RingDepth.Proofs.Trace.PlainSearch

/-!
# Where a search ends

A search goes from level to level until one of them ends it. Here it is told without a number of levels
that it may use up: a level ends the search in one of four ways, or the search passes it and goes on.

Every level that is passed adds a hash to those that were met, so a search cannot go on for ever. At the
depth at which it ends there is a transaction at this distance from the start, and one at every smaller
distance. Transactions at different distances are different, so a search that ends deep has met many.
-/

namespace RingDepth.Trace

/-- The result of a search from a start that ends at a depth. -/
def SearchEnd.result (start : TxHash) (depth : ℕ) : SearchEnd → Except TraceError ℕ
  | minted => .ok depth
  | failed e => .error e
  | exhausted => .error (.exhausted start depth)
  | limited limit => .error (.depthLimit start limit)

section Definitions

variable (r : Reader) (c : TraceConfig)

/-- How a level ends a search. -/
inductive LevelEnds (frontier met : Std.ExtTreeSet TxHash) (depth : ℕ) : SearchEnd → Prop
  | failed {e : TraceError} (he : (expandAll r c.ownerPolicy frontier.toList).result = .error e) :
    LevelEnds frontier met depth (.failed e)
  | minted {x : Expansion} (hx : (expandAll r c.ownerPolicy frontier.toList).result = .ok x)
    (hmint : x.minted = true) : LevelEnds frontier met depth .minted
  | exhausted {x : Expansion} (hx : (expandAll r c.ownerPolicy frontier.toList).result = .ok x)
    (hmint : x.minted = false) (hnew : (unmet met x.owners).isEmpty = true) :
    LevelEnds frontier met depth .exhausted
  | limited {x : Expansion} {limit : UInt64}
    (hx : (expandAll r c.ownerPolicy frontier.toList).result = .ok x) (hmint : x.minted = false)
    (hnew : (unmet met x.owners).isEmpty = false) (hlimit : exceeds c (depth + 1) = some limit) :
    LevelEnds frontier met depth (.limited limit)

/-- A search goes on from a level, to what is new among the owners that were found: all transactions of the
level are expanded, none mints, and the next level is not too deep. -/
structure LevelPasses (frontier met : Std.ExtTreeSet TxHash) (depth : ℕ) (x : Expansion) : Prop where
  expanded : (expandAll r c.ownerPolicy frontier.toList).result = .ok x
  not_minted : x.minted = false
  nonempty : (unmet met x.owners).isEmpty = false
  within : exceeds c (depth + 1) = none

/-- A search from a level on ends at a depth in some way, however many levels that takes. -/
inductive SearchEnds :
    (frontier met : Std.ExtTreeSet TxHash) → (depth found : ℕ) → SearchEnd → Prop
  | here {frontier met : Std.ExtTreeSet TxHash} {depth : ℕ} {how : SearchEnd}
    (h : LevelEnds r c frontier met depth how) : SearchEnds frontier met depth depth how
  | next {frontier met : Std.ExtTreeSet TxHash} {depth found : ℕ} {how : SearchEnd} {x : Expansion}
    (h : LevelPasses r c frontier met depth x)
    (hrest : SearchEnds (unmet met x.owners) (met.insertMany (unmet met x.owners).toList)
      (depth + 1) found how) : SearchEnds frontier met depth found how

end Definitions

variable {r : Reader} {c : TraceConfig} {start : TxHash} {frontier met : Std.ExtTreeSet TxHash}
  {depth found : ℕ} {how : SearchEnd}

/-- A level ends a search or is passed. -/
theorem levelEnds_or_passes (r : Reader) (c : TraceConfig) (frontier met : Std.ExtTreeSet TxHash)
    (depth : ℕ) :
    (∃ how, LevelEnds r c frontier met depth how) ∨ ∃ x, LevelPasses r c frontier met depth x := by
  cases hx : (expandAll r c.ownerPolicy frontier.toList).result with
  | error e => exact .inl ⟨_, .failed hx⟩
  | ok x =>
    cases hmint : x.minted with
    | true => exact .inl ⟨_, .minted hx hmint⟩
    | false =>
      cases hnew : (unmet met x.owners).isEmpty with
      | true => exact .inl ⟨_, .exhausted hx hmint hnew⟩
      | false =>
        cases hlimit : exceeds c (depth + 1) with
        | some limit => exact .inl ⟨_, .limited hx hmint hnew hlimit⟩
        | none => exact .inr ⟨x, hx, hmint, hnew, hlimit⟩

/-- A level that ends a search gives its result. -/
theorem LevelEnds.result_search (h : LevelEnds r c frontier met depth how) (fuel : ℕ) :
    (search r c start (fuel + 1) frontier met depth).result = how.result start depth := by
  rw [result_search_succ]
  cases h with
  | failed he => simp [he, SearchEnd.result]
  | minted hx hmint => simp [hx, hmint, SearchEnd.result]
  | exhausted hx hmint hnew => simp [hx, hmint, hnew, SearchEnd.result]
  | limited hx hmint hnew hlimit => simp [hx, hmint, hnew, hlimit, SearchEnd.result]

/-- A level that is passed leaves the result to the next one. -/
theorem LevelPasses.result_search {x : Expansion} (h : LevelPasses r c frontier met depth x)
    (fuel : ℕ) :
    (search r c start (fuel + 1) frontier met depth).result =
      (search r c start fuel (unmet met x.owners) (met.insertMany (unmet met x.owners).toList)
        (depth + 1)).result := by
  rw [result_search_succ]
  simp [h.expanded, h.not_minted, h.nonempty, h.within]

/-- A search ends no nearer than where it begins. -/
theorem SearchEnds.le (h : SearchEnds r c frontier met depth found how) : depth ≤ found := by
  induction h with
  | here _ => exact le_rfl
  | next _ _ ih => omega

/-- A search that may use as many levels as it takes has the result of its end. -/
theorem SearchEnds.result_search (h : SearchEnds r c frontier met depth found how) {fuel : ℕ}
    (hfuel : found < depth + fuel) :
    (search r c start fuel frontier met depth).result = how.result start found := by
  induction h generalizing fuel with
  | here h =>
    cases fuel with
    | zero => omega
    | succ fuel => exact h.result_search fuel
  | next h hrest ih =>
    have := hrest.le
    cases fuel with
    | zero => omega
    | succ fuel =>
      rw [h.result_search]
      apply ih
      omega

/-- Every search ends, as there are only so many hashes to meet. -/
theorem exists_searchEnds (r : Reader) (c : TraceConfig) (frontier met : Std.ExtTreeSet TxHash)
    (depth : ℕ) : ∃ found how, SearchEnds r c frontier met depth found how := by
  -- The measure is the number of hashes that were not met.
  induction hleft : hashCount - (members met).card using Nat.strong_induction_on
    generalizing frontier met depth with
  | _ left ih =>
    obtain ⟨how, hends⟩ | ⟨x, hpasses⟩ := levelEnds_or_passes r c frontier met depth
    · exact ⟨depth, how, .here hends⟩
    · have hmore := card_members_lt hpasses.nonempty
      have hall := card_le_hashCount (members (met.insertMany (unmet met x.owners).toList))
      obtain ⟨found, how, hrest⟩ := ih _ (by omega) (unmet met x.owners)
        (met.insertMany (unmet met x.owners).toList) (depth + 1) rfl
      exact ⟨found, how, .next hpasses hrest⟩

variable {policy : OwnerPolicy} {n m : ℕ} {hash : TxHash}

/-- A transaction is at one distance only. -/
theorem AtDistance.unique (hn : AtDistance r policy start n hash)
    (hm : AtDistance r policy start m hash) : n = m := by
  apply Nat.le_antisymm
  · exact Nat.le_of_not_lt fun hlt => hn.2 m hlt hm.1
  · exact Nat.le_of_not_lt fun hlt => hm.2 n hlt hn.1

/-- At the distances up to one that is taken there are as many transactions and one more. -/
theorem AtDistance.exists_finset (h : AtDistance r policy start n hash) :
    ∃ nearer : Finset TxHash, nearer.card = n + 1 ∧
      ∀ hash ∈ nearer, ∃ m ≤ n, AtDistance r policy start m hash := by
  classical
  have hall (m : Fin (n + 1)) : ∃ hash, AtDistance r policy start m hash :=
    h.exists_of_le (Nat.le_of_lt_succ m.isLt)
  choose pick hpick using hall
  have hinjective : Function.Injective pick := by
    intro m m' hsame
    apply Fin.ext
    exact (hpick m).unique (hsame ▸ hpick m')
  refine ⟨Finset.univ.image pick, ?card, ?near⟩
  case card => rw [Finset.card_image_of_injective _ hinjective, Finset.card_fin]
  case near =>
    intro hash hhash
    obtain ⟨m, -, rfl⟩ := Finset.mem_image.mp hhash
    exact ⟨m, Nat.le_of_lt_succ m.isLt, hpick m⟩

/-- There are more hashes than the distance of any transaction. -/
theorem AtDistance.lt_hashCount (h : AtDistance r policy start n hash) : n < hashCount := by
  obtain ⟨nearer, hcard, -⟩ := h.exists_finset
  have := card_le_hashCount nearer
  omega

/-- A level is expanded exactly when each transaction at this distance can be. -/
theorem Level.exists_expanded_iff (h : Level r policy start depth frontier met) :
    (∃ x, (expandAll r policy frontier.toList).result = .ok x) ↔
      ∀ hash, AtDistance r policy start depth hash → Expandable r policy hash := by
  rw [exists_result_expandAll_iff]
  simp only [Std.ExtTreeSet.mem_toList, h.mem_frontier]

/-- It mints exactly when one of them does. -/
theorem Level.minted_iff_exists {x : Expansion} (h : Level r policy start depth frontier met)
    (hx : (expandAll r policy frontier.toList).result = .ok x) :
    x.minted = true ↔ ∃ hash, AtDistance r policy start depth hash ∧ Mints r hash := by
  rw [(expandAll_spec hx).1]
  simp only [Std.ExtTreeSet.mem_toList, h.mem_frontier]

/-- It leads to nothing new exactly when there is no transaction one step further. -/
theorem Level.isEmpty_unmet_iff {x : Expansion} (h : Level r policy start depth frontier met)
    (hx : (expandAll r policy frontier.toList).result = .ok x) :
    (unmet met x.owners).isEmpty = true ↔
      ∀ hash, ¬AtDistance r policy start (depth + 1) hash := by
  rw [Std.ExtTreeSet.isEmpty_iff, Std.ExtTreeSet.eq_empty_iff_forall_not_mem]
  simp only [h.mem_unmet_iff hx]

/-- A level that is passed leads to one of transactions a step further. -/
theorem LevelPasses.next {x : Expansion} (h : LevelPasses r c frontier met depth x)
    (hlevel : Level r c.ownerPolicy start depth frontier met) :
    Level r c.ownerPolicy start (depth + 1) (unmet met x.owners)
        (met.insertMany (unmet met x.owners).toList) ∧
      ∃ hash, AtDistance r c.ownerPolicy start (depth + 1) hash := by
  refine ⟨hlevel.next h.expanded h.not_minted, ?_⟩
  have hnew := h.nonempty
  rw [← Bool.not_eq_true, hlevel.isEmpty_unmet_iff h.expanded] at hnew
  simpa using hnew

/-- A search ends at a level of the transactions at this distance, and there are some. -/
theorem SearchEnds.exists_level (h : SearchEnds r c frontier met depth found how)
    (hlevel : Level r c.ownerPolicy start depth frontier met)
    (hsome : ∃ hash, AtDistance r c.ownerPolicy start depth hash) :
    (∃ hash, AtDistance r c.ownerPolicy start found hash) ∧
      ∃ last before, Level r c.ownerPolicy start found last before ∧
        LevelEnds r c last before found how := by
  induction h with
  | here h => exact ⟨hsome, _, _, hlevel, h⟩
  | next h _ ih =>
    obtain ⟨hnext, hsome⟩ := h.next hlevel
    exact ih hnext hsome

/-- The search of a trace ends as told. -/
def TraceEnds (r : Reader) (c : TraceConfig) (start : TxHash) (found : ℕ) (how : SearchEnd) : Prop :=
  SearchEnds r c (.ofList [start]) (.ofList [start]) 0 found how

/-- So the trace ends at a level of the transactions at this distance, and there are some. -/
theorem TraceEnds.exists_level (h : TraceEnds r c start found how) :
    (∃ hash, AtDistance r c.ownerPolicy start found hash) ∧
      ∃ last before, Level r c.ownerPolicy start found last before ∧
        LevelEnds r c last before found how :=
  SearchEnds.exists_level h level_start ⟨start, atDistance_zero_iff.mpr rfl⟩

/-- It has the result of this end, as the levels that it may use up do not run out before. -/
theorem TraceEnds.map_depth (h : TraceEnds r c start found how) :
    (trace r c start).map TraceOutcome.depth = how.result start found := by
  obtain ⟨⟨hash, hhash⟩, -⟩ := h.exists_level
  rw [map_depth_trace]
  apply SearchEnds.result_search h
  have := hhash.lt_hashCount
  omega

/-- Every trace ends. -/
theorem exists_traceEnds (r : Reader) (c : TraceConfig) (start : TxHash) :
    ∃ found how, TraceEnds r c start found how :=
  exists_searchEnds r c _ _ 0

/-- A failure that ends a trace arises where transactions are expanded. -/
theorem TraceEnds.ofExpansion {e : TraceError} (h : TraceEnds r c start found (.failed e)) :
    e.OfExpansion := by
  obtain ⟨-, last, before, -, hends⟩ := h.exists_level
  cases hends with
  | failed he => exact failsOnly_expandAll _ e he

/-- A trace whose end has no depth fails with this end. -/
theorem TraceEnds.eq_error {e : TraceError} (h : TraceEnds r c start found how)
    (hresult : how.result start found = .error e) : trace r c start = .error e := by
  have hmap := h.map_depth.trans hresult
  cases htrace : trace r c start with
  | ok outcome =>
    rw [htrace] at hmap
    cases hmap
  | error e' =>
    rw [htrace] at hmap
    obtain rfl : e' = e := Except.error.inj hmap
    rfl

/-- A trace that gives a depth ended there, at a transaction that mints. -/
theorem traceEnds_of_ok {outcome : TraceOutcome} (htrace : trace r c start = .ok outcome) :
    TraceEnds r c start outcome.depth .minted := by
  obtain ⟨found, how, hends⟩ := exists_traceEnds r c start
  have hresult := hends.map_depth
  rw [htrace] at hresult
  cases how with
  | minted =>
    obtain rfl : outcome.depth = found := Except.ok.inj hresult
    exact hends
  | _ => cases hresult

/-- A trace that is lost ended at this depth, with nothing new to go to. -/
theorem traceEnds_of_exhausted {origin : TxHash}
    (htrace : trace r c start = .error (.exhausted origin depth)) :
    origin = start ∧ TraceEnds r c start depth .exhausted := by
  obtain ⟨found, how, hends⟩ := exists_traceEnds r c start
  have hresult := hends.map_depth
  rw [htrace] at hresult
  cases how with
  | exhausted =>
    cases hresult
    exact ⟨rfl, hends⟩
  | failed e =>
    cases hresult
    exact hends.ofExpansion.elim
  | _ => cases hresult

end RingDepth.Trace
