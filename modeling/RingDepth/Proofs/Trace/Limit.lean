import RingDepth.Proofs.Trace.Ending

/-!
# Traces under a limit

A limit of the depth only cuts. A search under a limit does what the search without one does, level by
level, until it would have to go deeper than the limit. So a trace that ends within the limit is the same
with it, its counted work included, and one that ends beyond it comes to the limit.

The limit is looked at after all else: at a level as deep as the limit a transaction that mints, a failure
and the end of all owners come before it.
-/

namespace RingDepth

/-- A part of a trace is followed in the same way by parts that are the same on what it gives. -/
theorem Traced.bind_congr {α β : Type} {x : Traced α} {f g : α → Traced β}
    (h : ∀ a, x.result = .ok a → f a = g a) : x >>= f = x >>= g := by
  change bind x f = bind x g
  cases x with
  | error e => rfl
  | ok found =>
    obtain ⟨a, w⟩ := found
    simp only [bind]
    rw [h a rfl]

namespace Trace

/-- A level at which a search fails: all nearer transactions are expanded and do not mint, and one at this
distance cannot be expanded. -/
structure FailsAt (r : Reader) (policy : OwnerPolicy) (start : TxHash) (depth : ℕ) : Prop where
  passed : ∀ n < depth, ∀ hash, AtDistance r policy start n hash →
    Expandable r policy hash ∧ ¬Mints r hash
  fails : ∃ hash, AtDistance r policy start depth hash ∧ ¬Expandable r policy hash

section Definitions

variable (r : Reader) (c : TraceConfig) (start : TxHash)

/-- The depth at which a trace without a limit ends. -/
inductive EndsAt : ℕ → Prop
  | found {outcome : TraceOutcome} (h : trace r { c with maxDepth := none } start = .ok outcome) :
    EndsAt outcome.depth
  | exhausted {origin : TxHash} {depth : ℕ}
    (h : trace r { c with maxDepth := none } start = .error (.exhausted origin depth)) : EndsAt depth
  | failed {e : TraceError} {depth : ℕ} (hfails : FailsAt r c.ownerPolicy start depth)
    (h : trace r { c with maxDepth := none } start = .error e) : EndsAt depth

/-- A trace under a limit is cut out of the one that ends at a depth without it: up to the limit nothing is
changed, and behind it the trace comes to the limit. -/
structure CutAt (limit : UInt64) (depth : ℕ) : Prop where
  kept : depth ≤ limit.toNat →
    trace r { c with maxDepth := some limit } start = trace r { c with maxDepth := none } start
  cut : limit.toNat < depth →
    trace r { c with maxDepth := some limit } start = .error (.depthLimit start limit)

end Definitions

variable {r : Reader} {c : TraceConfig} {start : TxHash} {limit : UInt64}
  {frontier met : Std.ExtTreeSet TxHash} {depth found : ℕ} {how : SearchEnd}

/-- A depth within the limit of the settings does not exceed it. -/
theorem exceeds_eq_none (h : depth ≤ limit.toNat) :
    exceeds { c with maxDepth := some limit } depth = none := by
  simp [exceeds, Option.filter, Nat.not_lt_of_le h]

/-- A depth beyond it does. -/
theorem exceeds_eq_some (h : limit.toNat < depth) :
    exceeds { c with maxDepth := some limit } depth = some limit :=
  exceeds_eq_some_iff.mpr ⟨rfl, h⟩

/-- A limit that a search does not pass changes nothing of it, not even how it counts. -/
theorem SearchEnds.search_eq
    (h : SearchEnds r { c with maxDepth := none } frontier met depth found how)
    (hle : found ≤ limit.toNat) (fuel : ℕ) :
    search r { c with maxDepth := some limit } start fuel frontier met depth =
      search r { c with maxDepth := none } start fuel frontier met depth := by
  induction h generalizing fuel with
  | here h =>
    cases fuel with
    | zero => rfl
    | succ fuel =>
      rw [search, search]
      apply Traced.bind_congr
      intro x hx
      -- The level ends the search before the limit is looked at.
      cases h with
      | failed he => cases he.symm.trans hx
      | minted hx' hmint =>
        obtain rfl := Except.ok.inj (hx.symm.trans hx')
        simp [hmint]
      | exhausted hx' hmint hnew =>
        obtain rfl := Except.ok.inj (hx.symm.trans hx')
        simp only [hmint, hnew]
        rfl
      | limited _ _ _ hlimit => cases hlimit
  | next h hrest ih =>
    cases fuel with
    | zero => rfl
    | succ fuel =>
      rw [search, search]
      apply Traced.bind_congr
      intro x hx
      obtain rfl := Except.ok.inj (hx.symm.trans h.expanded)
      have hwithin := exceeds_eq_none (c := c) (hrest.le.trans hle)
      simp only [h.not_minted, h.nonempty, h.within, hwithin, ih hle]

/-- One that it passes ends it at the level as deep as the limit. -/
theorem SearchEnds.limited
    (h : SearchEnds r { c with maxDepth := none } frontier met depth found how)
    (hdepth : depth ≤ limit.toNat) (hlt : limit.toNat < found) :
    SearchEnds r { c with maxDepth := some limit } frontier met depth limit.toNat (.limited limit) := by
  induction h with
  | here h => omega
  | @next _ _ depth _ _ _ h hrest ih =>
    obtain hless | rfl := Nat.lt_or_eq_of_le hdepth
    · apply SearchEnds.next
      · exact ⟨h.expanded, h.not_minted, h.nonempty, exceeds_eq_none hless⟩
      · exact ih hless hlt
    · apply SearchEnds.here
      exact .limited h.expanded h.not_minted h.nonempty (exceeds_eq_some (Nat.lt_succ_self _))

/-- A limit cuts a trace at the depth at which its search ends without one. -/
theorem TraceEnds.cutAt (h : TraceEnds r { c with maxDepth := none } start found how)
    (limit : UInt64) : CutAt r c start limit found where
  kept hle := by
    have hsearch : search r { c with maxDepth := some limit } start _ _ _ 0 = _ :=
      SearchEnds.search_eq h hle hashCount
    exact congrArg (Except.map fun ended => (⟨start, ended.1, ended.2⟩ : TraceOutcome)) hsearch
  cut hlt := by
    have hlimited : TraceEnds r { c with maxDepth := some limit } start limit.toNat (.limited limit) :=
      SearchEnds.limited h (Nat.zero_le _) hlt
    exact hlimited.eq_error rfl

/-- A trace that fails does so at the nearest transaction that cannot be expanded. -/
theorem TraceEnds.failsAt {e : TraceError} (h : TraceEnds r c start depth (.failed e)) :
    FailsAt r c.ownerPolicy start depth := by
  obtain ⟨-, last, before, hlevel, hends⟩ := h.exists_level
  refine ⟨hlevel.passed, ?_⟩
  cases hends with
  | failed he =>
    by_contra hnone
    simp only [not_exists, not_and_not_right] at hnone
    obtain ⟨x, hx⟩ := hlevel.exists_expanded_iff.mpr hnone
    cases he.symm.trans hx

/-- Without a limit it fails wherever there is one. -/
theorem FailsAt.traceEnds (hfails : FailsAt r c.ownerPolicy start depth) :
    ∃ e, TraceEnds r { c with maxDepth := none } start depth (.failed e) := by
  obtain ⟨hash, hhash, hnot⟩ := hfails.fails
  obtain ⟨found, how, h⟩ := exists_traceEnds r { c with maxDepth := none } start
  obtain ⟨-, last, before, hlevel, hends⟩ := h.exists_level
  have hfound : found ≤ depth := by
    by_contra hlt
    exact hnot (hlevel.passed depth (Nat.lt_of_not_le hlt) hash hhash).1
  have hexpanded (hx : ∃ x, (expandAll r c.ownerPolicy last.toList).result = .ok x) :
      found < depth := by
    apply Nat.lt_of_le_of_ne hfound
    rintro rfl
    exact hnot (hlevel.exists_expanded_iff.mp hx hash hhash)
  cases hends with
  | @failed e he =>
    -- A level before this depth would have been expanded.
    obtain rfl : found = depth := by
      by_contra hne
      have hpassed := hfails.passed found (Nat.lt_of_le_of_ne hfound hne)
      obtain ⟨x, hx⟩ := hlevel.exists_expanded_iff.mpr fun other hat => (hpassed other hat).1
      cases he.symm.trans hx
    exact ⟨e, h⟩
  | minted hx hmint =>
    obtain ⟨other, hat, hmints⟩ := (hlevel.minted_iff_exists hx).mp hmint
    exact absurd hmints (hfails.passed found (hexpanded ⟨_, hx⟩) other hat).2
  | exhausted hx _ hnew =>
    obtain ⟨next, hnext⟩ := hhash.exists_of_le (hexpanded ⟨_, hx⟩)
    exact absurd hnext ((hlevel.isEmpty_unmet_iff hx).mp hnew next)
  | limited _ _ _ hlimit => cases hlimit

/-- A trace without a limit ends at the depth at which its search ends. -/
theorem EndsAt.traceEnds (h : EndsAt r c start depth) :
    ∃ how, TraceEnds r { c with maxDepth := none } start depth how := by
  cases h with
  | found htrace => exact ⟨_, traceEnds_of_ok htrace⟩
  | exhausted htrace => exact ⟨_, (traceEnds_of_exhausted htrace).2⟩
  | failed hfails _ =>
    obtain ⟨e, hends⟩ := hfails.traceEnds
    exact ⟨_, hends⟩

/-- Every trace without a limit ends at a depth. -/
theorem exists_endsAt (r : Reader) (c : TraceConfig) (start : TxHash) :
    ∃ depth, EndsAt r c start depth := by
  obtain ⟨depth, how, h⟩ := exists_traceEnds r { c with maxDepth := none } start
  cases how with
  | minted =>
    obtain ⟨outcome, htrace, rfl⟩ := map_eq_ok_iff.mp h.map_depth
    exact ⟨_, .found htrace⟩
  | failed e => exact ⟨_, .failed h.failsAt (h.eq_error rfl)⟩
  | exhausted => exact ⟨_, .exhausted (h.eq_error rfl)⟩
  | limited limit =>
    obtain ⟨-, last, before, -, hends⟩ := h.exists_level
    cases hends with
    | limited _ _ _ hlimit => cases hlimit

/-- A depth that is found under a limit is found under every higher one and without one. -/
theorem trace_eq_of_limit_le {higher : UInt64} (hle : limit ≤ higher) {outcome : TraceOutcome}
    (h : trace r { c with maxDepth := some limit } start = .ok outcome) :
    trace r { c with maxDepth := some higher } start = .ok outcome ∧
      trace r { c with maxDepth := none } start = .ok outcome := by
  obtain ⟨found, how, hends⟩ := exists_traceEnds r { c with maxDepth := none } start
  have hcut := hends.cutAt limit
  have hwithin : found ≤ limit.toNat := by
    by_contra hbeyond
    cases h.symm.trans (hcut.cut (Nat.lt_of_not_le hbeyond))
  have hnone := (hcut.kept hwithin).symm.trans h
  have hhigher : found ≤ higher.toNat := hwithin.trans (UInt64.le_iff_toNat_le.mp hle)
  exact ⟨((hends.cutAt higher).kept hhigher).trans hnone, hnone⟩

/-- A limit of the depth only cuts. Every trace without a limit gives a depth, is lost at one, or fails at
the level of one. A limit that is not below this depth changes nothing of the trace, its counted work
included, and under a lower one the trace comes to the limit. So a depth that is found under a limit is
found under every higher one. -/
theorem limit_only_cuts (r : Reader) (c : TraceConfig) (start : TxHash) :
    (∃ depth, EndsAt r c start depth) ∧
    (∀ depth, EndsAt r c start depth → ∀ limit, CutAt r c start limit depth) ∧
    ∀ limit higher outcome, limit ≤ higher →
      trace r { c with maxDepth := some limit } start = .ok outcome →
        trace r { c with maxDepth := some higher } start = .ok outcome ∧
          trace r { c with maxDepth := none } start = .ok outcome := by
  refine ⟨exists_endsAt r c start, ?cuts, fun _ _ _ hle htrace => trace_eq_of_limit_le hle htrace⟩
  intro depth hdepth limit
  obtain ⟨how, hends⟩ := hdepth.traceEnds
  exact hends.cutAt limit

end Trace

end RingDepth
