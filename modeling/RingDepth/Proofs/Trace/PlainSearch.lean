import Mathlib.Data.Nat.Find
import RingDepth.Proofs.Outcome
import RingDepth.Proofs.Trace.Distance
import RingDepth.Proofs.Trace.Failures

/-!
# Searching without a record

A search leaves out the owners that it met before. The plain search leaves out none: its next level is
the set of all owners, so it may expand a transaction at many levels, and on a cycle it never ends.

The record changes nothing but the end of a search that is lost. A level of the plain search holds the
transactions at the ends of all walks of some length, one of the search only those at this distance. What
the plain search expands beside these was expanded at an earlier level, where it neither minted nor
failed. So both meet the same first failure and the same transactions that mint, as long as the search
goes on; and once it has nothing left, the plain search meets neither.
-/

namespace RingDepth.Trace

/-- How a search ends at a level. -/
inductive SearchEnd where
  | minted
  | failed (e : TraceError)
  | exhausted
  | limited (limit : UInt64)

/-- The level after one of a search without a record, which holds all owners whether they were met or not;
or how the search ends there. -/
def plainStep (r : Reader) (c : TraceConfig) (frontier : Std.ExtTreeSet TxHash) (depth : ℕ) :
    Except SearchEnd (Std.ExtTreeSet TxHash) :=
  match (expandAll r c.ownerPolicy frontier.toList).result with
  | .error e => .error (.failed e)
  | .ok level =>
    if level.minted then .error .minted
    else
      let next := Std.ExtTreeSet.ofList level.owners
      if next.isEmpty then .error .exhausted
      else
        match exceeds c (depth + 1) with
        | some limit => .error (.limited limit)
        | none => .ok next

/-- Searches from a level on without a record. Gives the depth at which the search ended and how, if it
ended within the given number of levels. -/
def searchPlain (r : Reader) (c : TraceConfig) :
    (levels : ℕ) → (frontier : Std.ExtTreeSet TxHash) → (depth : ℕ) → Option (ℕ × SearchEnd)
  | 0, _, _ => none
  | levels + 1, frontier, depth =>
    match plainStep r c frontier depth with
    | .error how => some (depth, how)
    | .ok next => searchPlain r c levels next (depth + 1)

/-- The plain search from a transaction ends at a depth in some way. -/
def PlainEnds (r : Reader) (c : TraceConfig) (start : TxHash) (depth : ℕ) (how : SearchEnd) : Prop :=
  ∃ levels, searchPlain r c levels (.ofList [start]) 0 = some (depth, how)

/-- The plain search from a transaction never ends. -/
def PlainRunsOn (r : Reader) (c : TraceConfig) (start : TxHash) : Prop :=
  ∀ levels, searchPlain r c levels (.ofList [start]) 0 = none

section Levels

variable {r : Reader} {policy : OwnerPolicy}

/-- The first transaction of a level is expanded before the others. -/
theorem result_expandAll_cons (hash : TxHash) (rest : List TxHash) :
    (expandAll r policy (hash :: rest)).result =
      (expand r policy hash).result >>= fun x =>
        (expandAll r policy rest).result.map fun others => x ++ others := by
  rw [expandAll, Traced.result_bind]
  congr 1
  funext x
  rw [Traced.result_bind]
  cases (expandAll r policy rest).result <;> rfl

/-- Leaving out transactions that expand and do not mint changes neither the first failure of a level nor
whether it mints. -/
theorem expandAll_filter {keep : TxHash → Bool} {hashes : List TxHash}
    (h : ∀ hash ∈ hashes, keep hash = false → Expandable r policy hash ∧ ¬Mints r hash) :
    (expandAll r policy (hashes.filter keep)).result.map Expansion.minted =
      (expandAll r policy hashes).result.map Expansion.minted := by
  have hmap (x : Expansion) (level : Except TraceError Expansion) :
      (level.map fun others => x ++ others).map Expansion.minted =
        (level.map Expansion.minted).map (x.minted || ·) := by
    cases level <;> rfl
  induction hashes with
  | nil => rfl
  | cons hash rest ih =>
    obtain ⟨hhash, hrest⟩ := List.forall_mem_cons.mp h
    cases hkeep : keep hash with
    | true =>
      rw [List.filter_cons_of_pos hkeep, result_expandAll_cons, result_expandAll_cons]
      cases (expand r policy hash).result with
      | error e => rfl
      | ok x =>
        change Except.map _ (Except.map _ _) = Except.map _ (Except.map _ _)
        rw [hmap, hmap, ih hrest]
    | false =>
      obtain ⟨hexpand, hmint⟩ := hhash hkeep
      obtain ⟨x, hx⟩ := exists_result_expand_iff.mpr hexpand
      have hminted : x.minted = false := by
        rw [← Bool.not_eq_true, (expand_spec hx).1]
        exact hmint
      rw [List.filter_cons_of_neg (by simp [hkeep]), ih hrest, result_expandAll_cons, hx]
      change _ = Except.map _ (Except.map _ _)
      rw [hmap, hminted]
      cases (expandAll r policy rest).result with
      | error e => rfl
      | ok others => simp [Except.map]

/-- The list of a set that lies in another is what is left of the list of the other. -/
theorem toList_eq_filter {frontier full : Std.ExtTreeSet TxHash}
    (h : ∀ hash ∈ frontier, hash ∈ full) :
    frontier.toList = full.toList.filter fun hash => frontier.contains hash := by
  rw [← Std.ExtTreeSet.toList_filter, Std.ExtTreeSet.toList_inj]
  refine Std.ExtTreeSet.ext_mem fun hash => ?_
  rw [← Std.ExtTreeSet.mem_toList (t := full.filter _), Std.ExtTreeSet.toList_filter,
    List.mem_filter, Std.ExtTreeSet.mem_toList, Std.ExtTreeSet.contains_iff_mem]
  exact ⟨fun hmem => ⟨h hash hmem, hmem⟩, fun hboth => hboth.2⟩

variable {start : TxHash}

/-- The end of a walk is at some distance from the start, which is at most its length. -/
theorem Walk.exists_atDistance {n : ℕ} {hash : TxHash} (h : Walk r policy start n hash) :
    ∃ m ≤ n, AtDistance r policy start m hash := by
  classical
  have hwalk : ∃ m, Walk r policy start m hash := ⟨n, h⟩
  exact ⟨Nat.find hwalk, Nat.find_min' hwalk h, Nat.find_spec hwalk,
    fun m hm => Nat.find_min hwalk hm⟩

/-- If a level holds the ends of all walks of a length, its owners are the ends of those one edge
longer. -/
theorem mem_ofList_owners_iff {full : Std.ExtTreeSet TxHash} {depth : ℕ} {whole : Expansion}
    (hfull : ∀ hash, hash ∈ full ↔ Walk r policy start depth hash)
    (hwhole : (expandAll r policy full.toList).result = .ok whole) (owner : TxHash) :
    owner ∈ Std.ExtTreeSet.ofList whole.owners ↔ Walk r policy start (depth + 1) owner := by
  rw [Std.ExtTreeSet.mem_ofList, List.contains_iff_mem, (expandAll_spec hwhole).2]
  refine ⟨fun hleft => ?_, fun hwalk => ?_⟩
  · obtain ⟨hash, hhash, hedge⟩ := hleft
    exact ((hfull hash).mp (Std.ExtTreeSet.mem_toList.mp hhash)).step hedge
  · cases hwalk with
    | @step _ hash _ hwalk hedge =>
      exact ⟨hash, Std.ExtTreeSet.mem_toList.mpr ((hfull hash).mpr hwalk), hedge⟩

/-- A level and the ends of all walks of its length fail alike and mint alike. -/
theorem Level.minted_eq {depth : ℕ} {frontier met full : Std.ExtTreeSet TxHash}
    (h : Level r policy start depth frontier met)
    (hfull : ∀ hash, hash ∈ full ↔ Walk r policy start depth hash) :
    (expandAll r policy frontier.toList).result.map Expansion.minted =
      (expandAll r policy full.toList).result.map Expansion.minted := by
  have hsub (hash : TxHash) (hhash : hash ∈ frontier) : hash ∈ full :=
    (hfull hash).mpr ((h.mem_frontier hash).mp hhash).1
  rw [toList_eq_filter hsub]
  refine expandAll_filter fun hash hhash hout => ?_
  -- What the frontier lacks is nearer to the start, and was passed there.
  obtain ⟨m, hm, hat⟩ := ((hfull hash).mp (Std.ExtTreeSet.mem_toList.mp hhash)).exists_atDistance
  refine h.passed m (Nat.lt_of_le_of_ne hm fun heq => ?_) hash hat
  have hmem : hash ∈ frontier := (h.mem_frontier hash).mpr (heq ▸ hat)
  rw [← Std.ExtTreeSet.contains_iff_mem, hout] at hmem
  exact Bool.false_ne_true hmem

/-- If a level leads to nothing new, then no walk leads to a transaction that mints or cannot be
expanded. -/
theorem Level.settled {depth : ℕ} {frontier met : Std.ExtTreeSet TxHash} {x : Expansion}
    (h : Level r policy start depth frontier met)
    (hx : (expandAll r policy frontier.toList).result = .ok x) (hmint : x.minted = false)
    (hnew : (unmet met x.owners).isEmpty = true) {n : ℕ} {hash : TxHash}
    (hwalk : Walk r policy start n hash) : Expandable r policy hash ∧ ¬Mints r hash := by
  obtain ⟨m, -, hat⟩ := hwalk.exists_atDistance
  refine (h.next hx hmint).passed m ?_ hash hat
  by_contra hfar
  obtain ⟨next, hnext⟩ := hat.exists_of_le (Nat.le_of_not_lt hfar)
  have hmem := (h.mem_unmet_iff hx next).mpr hnext
  rw [Std.ExtTreeSet.isEmpty_iff] at hnew
  rw [hnew] at hmem
  exact Std.ExtTreeSet.not_mem_empty hmem

end Levels

variable {r : Reader} {c : TraceConfig} {start : TxHash}

/-- What the result of a search says of the plain search, given by its ends within any number of
levels. -/
inductive Reflects (start : TxHash) (plain : ℕ → Option (ℕ × SearchEnd)) :
    Except TraceError ℕ → Prop
  | minted {levels depth : ℕ} (h : plain levels = some (depth, .minted)) :
    Reflects start plain (.ok depth)
  | failed {levels depth : ℕ} {e : TraceError} (he : e.OfExpansion)
    (h : plain levels = some (depth, .failed e)) : Reflects start plain (.error e)
  | limited {levels depth : ℕ} {limit : UInt64} (h : plain levels = some (depth, .limited limit)) :
    Reflects start plain (.error (.depthLimit start limit))
  /-- The search is lost, and the plain search meets neither a transaction that mints nor a failure. -/
  | exhausted {depth : ℕ}
    (h : ∀ levels found how, plain levels = some (found, how) →
      how = .exhausted ∨ ∃ limit, how = .limited limit) :
    Reflects start plain (.error (.exhausted start depth))

/-- A plain search that takes one level to get where another one starts has the same ends. -/
theorem Reflects.of_succ {plain next : ℕ → Option (ℕ × SearchEnd)} {result : Except TraceError ℕ}
    (hzero : plain 0 = none) (hsucc : ∀ levels, plain (levels + 1) = next levels)
    (h : Reflects start next result) : Reflects start plain result := by
  cases h with
  | minted h => exact .minted ((hsucc _).trans h)
  | failed he h => exact .failed he ((hsucc _).trans h)
  | limited h => exact .limited ((hsucc _).trans h)
  | exhausted h =>
    refine .exhausted fun levels found how hends => ?_
    cases levels with
    | zero => rw [hzero] at hends; cases hends
    | succ levels => exact h levels found how (hsucc levels ▸ hends)

/-- The first level of a search ends it or leads to the others. -/
theorem result_search_succ (fuel : ℕ) (frontier met : Std.ExtTreeSet TxHash) (depth : ℕ) :
    (search r c start (fuel + 1) frontier met depth).result =
      match (expandAll r c.ownerPolicy frontier.toList).result with
      | .error e => .error e
      | .ok level =>
        if level.minted then .ok depth
        else if (unmet met level.owners).isEmpty then .error (.exhausted start depth)
        else
          match exceeds c (depth + 1) with
          | some limit => .error (.depthLimit start limit)
          | none =>
            (search r c start fuel (unmet met level.owners)
              (met.insertMany (unmet met level.owners).toList) (depth + 1)).result := by
  rw [search, Traced.result_bind]
  cases (expandAll r c.ownerPolicy frontier.toList).result with
  | error e => rfl
  | ok level =>
    dsimp only [bind, Except.bind]
    split_ifs
    · rfl
    · rfl
    · cases exceeds c (depth + 1) <;> rfl

/-- A plain search on walks that meet neither a transaction that mints nor a failure ends with neither. -/
theorem searchPlain_of_settled
    (hall : ∀ n hash, Walk r c.ownerPolicy start n hash →
      Expandable r c.ownerPolicy hash ∧ ¬Mints r hash)
    {levels depth found : ℕ} {full : Std.ExtTreeSet TxHash} {how : SearchEnd}
    (hfull : ∀ hash, hash ∈ full ↔ Walk r c.ownerPolicy start depth hash)
    (hends : searchPlain r c levels full depth = some (found, how)) :
    how = .exhausted ∨ ∃ limit, how = .limited limit := by
  induction levels generalizing depth full with
  | zero => cases hends
  | succ levels ih =>
    have hlevel (hash : TxHash) (hhash : hash ∈ full.toList) :
        Expandable r c.ownerPolicy hash ∧ ¬Mints r hash :=
      hall depth hash ((hfull hash).mp (Std.ExtTreeSet.mem_toList.mp hhash))
    obtain ⟨whole, hwhole⟩ := exists_result_expandAll_iff.mpr fun hash hhash => (hlevel hash hhash).1
    have hmint : ¬whole.minted = true := by
      rw [(expandAll_spec hwhole).1]
      intro hminted
      obtain ⟨hash, hhash, hmints⟩ := hminted
      exact (hlevel hash hhash).2 hmints
    rw [searchPlain, plainStep, hwhole] at hends
    simp only [if_neg hmint] at hends
    by_cases hnext : (Std.ExtTreeSet.ofList whole.owners).isEmpty = true
    · rw [if_pos hnext] at hends
      cases hends
      exact .inl rfl
    · rw [if_neg hnext] at hends
      cases hlimit : exceeds c (depth + 1) with
      | some limit =>
        rw [hlimit] at hends
        cases hends
        exact .inr ⟨limit, rfl⟩
      | none =>
        rw [hlimit] at hends
        exact ih (mem_ofList_owners_iff hfull hwhole) hends

section Step

variable {depth : ℕ} {frontier met full : Std.ExtTreeSet TxHash}

/-- Where a level fails, the plain search fails in the same way. -/
theorem Level.plainStep_eq_failed (h : Level r c.ownerPolicy start depth frontier met)
    (hfull : ∀ hash, hash ∈ full ↔ Walk r c.ownerPolicy start depth hash) {e : TraceError}
    (he : (expandAll r c.ownerPolicy frontier.toList).result = .error e) :
    plainStep r c full depth = .error (.failed e) := by
  have hsame := h.minted_eq hfull
  rw [he] at hsame
  cases hwhole : (expandAll r c.ownerPolicy full.toList).result with
  | ok whole =>
    rw [hwhole] at hsame
    cases hsame
  | error e' =>
    rw [hwhole] at hsame
    obtain rfl : e = e' := Except.error.inj hsame
    rw [plainStep, hwhole]

/-- Where it does not fail, neither does the plain search, and both meet a transaction that mints or
neither does. -/
theorem Level.exists_whole (h : Level r c.ownerPolicy start depth frontier met)
    (hfull : ∀ hash, hash ∈ full ↔ Walk r c.ownerPolicy start depth hash) {x : Expansion}
    (hx : (expandAll r c.ownerPolicy frontier.toList).result = .ok x) :
    ∃ whole, (expandAll r c.ownerPolicy full.toList).result = .ok whole ∧
      whole.minted = x.minted := by
  have hsame := h.minted_eq hfull
  rw [hx] at hsame
  exact map_eq_ok_iff.mp hsame.symm

/-- Where it leads to something new, the plain search goes on to all owners, unless these are too deep. -/
theorem Level.plainStep_eq_next (h : Level r c.ownerPolicy start depth frontier met)
    (hfull : ∀ hash, hash ∈ full ↔ Walk r c.ownerPolicy start depth hash) {x whole : Expansion}
    (hx : (expandAll r c.ownerPolicy frontier.toList).result = .ok x)
    (hwhole : (expandAll r c.ownerPolicy full.toList).result = .ok whole)
    (hmint : whole.minted = false) (hnew : (unmet met x.owners).isEmpty = false) :
    plainStep r c full depth =
      match exceeds c (depth + 1) with
      | some limit => .error (.limited limit)
      | none => .ok (.ofList whole.owners) := by
  -- What is new to the search is among all owners, so these are not empty either.
  have hnext : (Std.ExtTreeSet.ofList whole.owners).isEmpty = false := by
    rw [Std.ExtTreeSet.isEmpty_eq_false_iff] at hnew ⊢
    intro hempty
    refine hnew (Std.ExtTreeSet.eq_empty_iff_forall_not_mem.mpr fun owner howner => ?_)
    have hat := (h.mem_unmet_iff hx owner).mp howner
    have hmem := (mem_ofList_owners_iff hfull hwhole owner).mpr hat.1
    exact Std.ExtTreeSet.eq_empty_iff_forall_not_mem.mp hempty owner hmem
  rw [plainStep, hwhole]
  simp only [hmint, hnext, Bool.false_eq_true, if_false]

end Step

/-- From any level on a search reflects the plain search, provided that it has levels left for all hashes
that were not met. -/
theorem search_reflects {fuel depth : ℕ} {frontier met full : Std.ExtTreeSet TxHash}
    (h : Level r c.ownerPolicy start depth frontier met)
    (hfull : ∀ hash, hash ∈ full ↔ Walk r c.ownerPolicy start depth hash)
    (hfuel : hashCount < (members met).card + fuel) :
    Reflects start (fun levels => searchPlain r c levels full depth)
      (search r c start fuel frontier met depth).result := by
  induction fuel generalizing depth frontier met full with
  | zero => exact absurd (card_le_hashCount (members met)) (by omega)
  | succ fuel ih =>
    have hend {how : SearchEnd} (hstep : plainStep r c full depth = .error how) :
        searchPlain r c 1 full depth = some (depth, how) := by
      rw [searchPlain, hstep]
    rw [result_search_succ]
    cases hx : (expandAll r c.ownerPolicy frontier.toList).result with
    | error e =>
      exact .failed (failsOnly_expandAll _ e hx) (hend (h.plainStep_eq_failed hfull hx))
    | ok x =>
      obtain ⟨whole, hwhole, hminted⟩ := h.exists_whole hfull hx
      dsimp only
      split_ifs with hmint hnew
      · have hstep : plainStep r c full depth = .error .minted := by
          rw [plainStep, hwhole]
          exact if_pos (hminted.trans hmint)
        exact .minted (hend hstep)
      · rw [Bool.not_eq_true] at hmint
        refine .exhausted fun levels found how hends => ?_
        exact searchPlain_of_settled (fun n hash => h.settled hx hmint hnew) hfull hends
      · rw [Bool.not_eq_true] at hmint hnew
        have hstep := h.plainStep_eq_next hfull hx hwhole (hminted.trans hmint) hnew
        cases hlimit : exceeds c (depth + 1) with
        | some limit =>
          rw [hlimit] at hstep
          exact .limited (hend hstep)
        | none =>
          rw [hlimit] at hstep
          have hothers := mem_ofList_owners_iff hfull hwhole
          refine .of_succ rfl (fun levels => by rw [searchPlain, hstep])
            (ih (h.next hx hmint) hothers ?_)
          -- The level met a new hash, so one level fewer is still enough for the others.
          have := card_members_lt hnew
          omega

/-- A depth exceeds the limit of the settings exactly when there is a limit below it. -/
theorem exceeds_eq_some_iff {depth : ℕ} {limit : UInt64} :
    exceeds c depth = some limit ↔ c.maxDepth = some limit ∧ limit.toNat < depth := by
  rw [exceeds, Option.filter_eq_some_iff, decide_eq_true_eq]

/-- A step of the plain search comes to the limit only where the next level is deeper. -/
theorem exceeds_of_plainStep {frontier : Std.ExtTreeSet TxHash} {depth : ℕ} {limit : UInt64}
    (h : plainStep r c frontier depth = .error (.limited limit)) :
    exceeds c (depth + 1) = some limit := by
  unfold plainStep at h
  split at h
  · cases h
  · dsimp only at h
    split_ifs at h with hmint hnext
    · cases h
    · cases h
    · split at h
      · rename_i hexceeds
        cases h
        exact hexceeds
      · cases h

/-- A step of the plain search goes on only where the next level is not deeper than the limit. -/
theorem le_of_plainStep {frontier next : Std.ExtTreeSet TxHash} {depth : ℕ}
    (h : plainStep r c frontier depth = .ok next) {limit : UInt64}
    (hlimit : c.maxDepth = some limit) : depth + 1 ≤ limit.toNat := by
  by_contra hlt
  have hexceeds := exceeds_eq_some_iff.mpr ⟨hlimit, Nat.lt_of_not_le hlt⟩
  unfold plainStep at h
  split at h
  · cases h
  · dsimp only at h
    split_ifs at h
    rw [hexceeds] at h
    cases h

/-- A plain search that comes to the limit has expanded the level at this depth, and none below it. -/
theorem searchPlain_limited {levels depth found : ℕ} {full : Std.ExtTreeSet TxHash} {limit : UInt64}
    (hdepth : ∀ limit, c.maxDepth = some limit → depth ≤ limit.toNat)
    (hends : searchPlain r c levels full depth = some (found, .limited limit)) :
    c.maxDepth = some limit ∧ found = limit.toNat := by
  induction levels generalizing depth full with
  | zero => cases hends
  | succ levels ih =>
    rw [searchPlain] at hends
    cases hstep : plainStep r c full depth with
    | ok next =>
      rw [hstep] at hends
      exact ih (fun limit => le_of_plainStep hstep) hends
    | error how =>
      rw [hstep] at hends
      cases hends
      obtain ⟨hlimit, hlt⟩ := exceeds_eq_some_iff.mp (exceeds_of_plainStep hstep)
      exact ⟨hlimit, Nat.le_antisymm (hdepth limit hlimit) (Nat.le_of_lt_succ hlt)⟩

/-- Under a limit the plain search ends before it has gone deeper. -/
theorem searchPlain_ne_none {levels depth : ℕ} {full : Std.ExtTreeSet TxHash} {limit : UInt64}
    (hlimit : c.maxDepth = some limit) (hlevels : limit.toNat < depth + levels)
    (hdepth : depth ≤ limit.toNat) : searchPlain r c levels full depth ≠ none := by
  induction levels generalizing depth full with
  | zero => omega
  | succ levels ih =>
    rw [searchPlain]
    cases hstep : plainStep r c full depth with
    | ok next => exact ih (by omega) (le_of_plainStep hstep hlimit)
    | error how => exact Option.some_ne_none _

/-- More levels change no end. -/
theorem searchPlain_mono {levels more depth : ℕ} {full : Std.ExtTreeSet TxHash}
    {ending : ℕ × SearchEnd} (hle : levels ≤ more)
    (hends : searchPlain r c levels full depth = some ending) :
    searchPlain r c more full depth = some ending := by
  induction levels generalizing more depth full with
  | zero => cases hends
  | succ levels ih =>
    obtain ⟨more, rfl⟩ := Nat.exists_eq_succ_of_ne_zero (Nat.ne_zero_of_lt hle)
    rw [searchPlain] at hends ⊢
    cases hstep : plainStep r c full depth with
    | ok next =>
      rw [hstep] at hends
      exact ih (Nat.le_of_succ_le_succ hle) hends
    | error how =>
      rw [hstep] at hends
      exact hends

/-- A plain search has one end at most. -/
theorem searchPlain_unique {levels more depth : ℕ} {full : Std.ExtTreeSet TxHash}
    {ending other : ℕ × SearchEnd} (hends : searchPlain r c levels full depth = some ending)
    (hother : searchPlain r c more full depth = some other) : ending = other := by
  have hfirst := searchPlain_mono (Nat.le_max_left levels more) hends
  have hsecond := searchPlain_mono (Nat.le_max_right levels more) hother
  exact Option.some.inj (hfirst.symm.trans hsecond)

/-- The depth or the failure of a trace is that of its search. -/
theorem map_depth_trace :
    (trace r c start).map TraceOutcome.depth =
      (search r c start hashCount (.ofList [start]) (.ofList [start]) 0).result := by
  rw [trace, Traced.result]
  cases search r c start hashCount (.ofList [start]) (.ofList [start]) 0 <;> rfl

/-- A trace reflects the plain search from its start. -/
theorem trace_reflects (r : Reader) (c : TraceConfig) (start : TxHash) :
    Reflects start (fun levels => searchPlain r c levels (.ofList [start]) 0)
      ((trace r c start).map TraceOutcome.depth) := by
  rw [map_depth_trace]
  refine search_reflects level_start (fun hash => ?_) ?_
  · rw [(level_start : Level r c.ownerPolicy start 0 _ _).mem_frontier, atDistance_zero_iff]
    refine ⟨fun hleft => ?_, fun hwalk => ?_⟩
    · obtain rfl := hleft
      exact .start
    · cases hwalk
      rfl
  · have hmet : start ∈ members (.ofList [start]) := by simp [← Std.ExtTreeSet.contains_iff_mem]
    have := Finset.card_pos.mpr ⟨start, hmet⟩
    omega

/-- A trace gives a depth exactly where the plain search meets a transaction that mints. -/
theorem plainEnds_minted_iff {depth : ℕ} :
    PlainEnds r c start depth .minted ↔
      ∃ outcome, trace r c start = .ok outcome ∧ outcome.depth = depth := by
  rw [← map_eq_ok_iff]
  have h := trace_reflects r c start
  generalize (trace r c start).map TraceOutcome.depth = result at h
  constructor
  · intro hends
    obtain ⟨levels, hends⟩ := hends
    cases h with
    | minted h =>
      cases searchPlain_unique h hends
      rfl
    | failed _ h => cases searchPlain_unique h hends
    | limited h => cases searchPlain_unique h hends
    | exhausted h => obtain h | ⟨_, h⟩ := h levels depth _ hends <;> cases h
  · intro hresult
    subst hresult
    cases h with
    | minted h => exact ⟨_, h⟩

/-- A trace raises a failure of the expansion exactly where the plain search meets it. -/
theorem exists_plainEnds_failed_iff {e : TraceError} :
    (∃ depth, PlainEnds r c start depth (.failed e)) ↔
      e.OfExpansion ∧ trace r c start = .error e := by
  have hmap : trace r c start = .error e ↔ (trace r c start).map TraceOutcome.depth = .error e := by
    cases trace r c start <;> simp [Except.map]
  rw [hmap]
  have h := trace_reflects r c start
  generalize (trace r c start).map TraceOutcome.depth = result at h
  constructor
  · intro hends
    obtain ⟨depth, levels, hends⟩ := hends
    cases h with
    | minted h => cases searchPlain_unique h hends
    | failed he h =>
      cases searchPlain_unique h hends
      exact ⟨he, rfl⟩
    | limited h => cases searchPlain_unique h hends
    | exhausted h => obtain h | ⟨_, h⟩ := h levels depth _ hends <;> cases h
  · intro hresult
    obtain ⟨he, rfl⟩ := hresult
    cases h with
    | failed _ h => exact ⟨_, _, h⟩
    | limited _ => exact he.elim
    | exhausted _ => exact he.elim

/-- A plain search that comes to the limit has the limit of the settings as depth. -/
theorem PlainEnds.eq_limit {depth : ℕ} {limit : UInt64}
    (h : PlainEnds r c start depth (.limited limit)) :
    c.maxDepth = some limit ∧ PlainEnds r c start limit.toNat (.limited limit) := by
  obtain ⟨levels, hends⟩ := h
  obtain ⟨hlimit, rfl⟩ := searchPlain_limited (fun _ _ => Nat.zero_le _) hends
  exact ⟨hlimit, levels, hends⟩

/-- A plain search that has no end has no limit. -/
theorem PlainRunsOn.maxDepth_eq_none (h : PlainRunsOn r c start) : c.maxDepth = none := by
  cases hlimit : c.maxDepth with
  | none => rfl
  | some limit =>
    exact absurd (h (limit.toNat + 1)) (searchPlain_ne_none hlimit (by omega) (Nat.zero_le _))

/-- A trace that comes to the limit does so with the plain search. -/
theorem plainEnds_of_depthLimit {origin : TxHash} {limit : UInt64}
    (htrace : trace r c start = .error (.depthLimit origin limit)) :
    origin = start ∧ c.maxDepth = some limit ∧ PlainEnds r c start limit.toNat (.limited limit) := by
  have h := trace_reflects r c start
  rw [htrace] at h
  cases h with
  | failed he _ => exact he.elim
  | limited h => exact ⟨rfl, PlainEnds.eq_limit ⟨_, h⟩⟩

/-- Where a trace is lost, the plain search is lost too, comes to the limit, or never ends. -/
theorem plainEnds_of_exhausted {origin : TxHash} {depth : ℕ}
    (htrace : trace r c start = .error (.exhausted origin depth)) :
    origin = start ∧
      ((∃ found, PlainEnds r c start found .exhausted) ∨
        (∃ limit, c.maxDepth = some limit ∧ PlainEnds r c start limit.toNat (.limited limit)) ∨
        (c.maxDepth = none ∧ PlainRunsOn r c start)) := by
  have h := trace_reflects r c start
  rw [htrace] at h
  cases h with
  | failed he _ => exact he.elim
  | exhausted h =>
    refine ⟨rfl, ?_⟩
    by_cases hruns : PlainRunsOn r c start
    · exact .inr (.inr ⟨hruns.maxDepth_eq_none, hruns⟩)
    · obtain ⟨levels, hlevels⟩ := not_forall.mp hruns
      obtain ⟨⟨found, how⟩, hends⟩ := Option.ne_none_iff_exists'.mp hlevels
      obtain rfl | ⟨limit, rfl⟩ := h levels found how hends
      · exact .inl ⟨found, levels, hends⟩
      · exact .inr (.inl ⟨limit, PlainEnds.eq_limit ⟨levels, hends⟩⟩)

/-- The record of a search changes neither the depth nor the failure of a trace. A trace gives a depth
exactly when the plain search meets a transaction that mints there, and raises a failure of the expansion
exactly when the plain search meets it. It comes to the limit only with the plain search. Where it is
lost, the plain search is lost too, or goes on and meets neither, until the limit or for ever. -/
theorem trace_matches_plainSearch (r : Reader) (c : TraceConfig) (start : TxHash) :
    (∀ depth, PlainEnds r c start depth .minted ↔
      ∃ outcome, trace r c start = .ok outcome ∧ outcome.depth = depth) ∧
    (∀ e, (∃ depth, PlainEnds r c start depth (.failed e)) ↔
      e.OfExpansion ∧ trace r c start = .error e) ∧
    (∀ origin limit, trace r c start = .error (.depthLimit origin limit) →
      origin = start ∧ c.maxDepth = some limit ∧
        PlainEnds r c start limit.toNat (.limited limit)) ∧
    ∀ origin depth, trace r c start = .error (.exhausted origin depth) →
      origin = start ∧
        ((∃ found, PlainEnds r c start found .exhausted) ∨
          (∃ limit, c.maxDepth = some limit ∧ PlainEnds r c start limit.toNat (.limited limit)) ∨
          (c.maxDepth = none ∧ PlainRunsOn r c start)) :=
  ⟨fun _ => plainEnds_minted_iff, fun _ => exists_plainEnds_failed_iff,
    fun _ _ => plainEnds_of_depthLimit, fun _ _ => plainEnds_of_exhausted⟩

end RingDepth.Trace
