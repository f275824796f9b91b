import Mathlib.Data.List.TakeWhile
import Mathlib.Order.Bounds.Basic
import RingDepth.Proofs.Trace.Ending

/-!
# When a search is lost

A search without a limit is lost exactly when there is nothing to find: every transaction that can be
reached is expanded, and none of them mints. The reachable transactions are told without the search, as
those to which all inputs lead, also inputs behind one that mints and inputs of a transaction that cannot
be expanded as a whole. A transaction that was met before is not expanded again, but it was expanded then,
so nothing that it leads to is missed.
-/

namespace RingDepth.Trace

section Definitions

variable (r : Reader) (policy : OwnerPolicy) (start : TxHash)

/-- An edge: an input of the transaction names an output that the other transaction owns. -/
def Spends (hash owner : TxHash) : Prop :=
  ∃ t, r.transaction hash = .ok (some t) ∧
    ∃ input ∈ t.inputs, ∃ id, input.Names id ∧ (findOwner r policy id).result = .ok owner

/-- Transactions to which a number of such edges lead from the start. -/
inductive Path : ℕ → TxHash → Prop
  | start : Path 0 start
  | step {n : ℕ} {hash owner : TxHash} : Path n hash → Spends r policy hash owner → Path (n + 1) owner

/-- A transaction that is fetched and expanded without a failure, and of which no input mints. -/
def Passable (hash : TxHash) : Prop :=
  ∃ t, r.transaction hash = .ok (some t) ∧
    ∀ input ∈ t.inputs, input.isTerminal = false ∧ Followable r policy input

/-- The distances at which there are transactions: for each one the least number of edges. -/
def distances : Set ℕ := {d | ∃ hash, IsLeast {n | Path r policy start n hash} d}

end Definitions

variable {r : Reader} {c : TraceConfig} {policy : OwnerPolicy} {start hash owner : TxHash} {n : ℕ}

/-- A transaction does not mint exactly if none of its inputs does. -/
theorem mints_eq_false_iff {t : Transaction} :
    t.mints = false ↔ ∀ input ∈ t.inputs, input.isTerminal = false := by
  simp [Transaction.mints]

/-- One that does not mint is looked at as a whole. -/
theorem tracedInputs_eq_inputs {t : Transaction} (h : t.mints = false) :
    t.tracedInputs = t.inputs := by
  rw [Transaction.tracedInputs, List.takeWhile_eq_self_iff]
  simpa using mints_eq_false_iff.mp h

/-- That a hash names none that mints is said of the transaction under it. -/
theorem not_mints_iff {t : Transaction} (ht : r.transaction hash = .ok (some t)) :
    ¬Mints r hash ↔ t.mints = false := by
  simp [Mints, ht]

/-- A transaction can be passed exactly if it can be expanded and does not mint. -/
theorem passable_iff : Passable r policy hash ↔ Expandable r policy hash ∧ ¬Mints r hash := by
  constructor
  · intro h
    obtain ⟨t, ht, hinputs⟩ := h
    have hmints := mints_eq_false_iff.mpr fun input hinput => (hinputs input hinput).1
    refine ⟨⟨t, ht, ?_⟩, (not_mints_iff ht).mpr hmints⟩
    rw [tracedInputs_eq_inputs hmints]
    exact fun input hinput => (hinputs input hinput).2
  · intro h
    obtain ⟨⟨t, ht, hfollow⟩, hnot⟩ := h
    have hmints := (not_mints_iff ht).mp hnot
    rw [tracedInputs_eq_inputs hmints] at hfollow
    exact ⟨t, ht, fun input hinput =>
      ⟨mints_eq_false_iff.mp hmints input hinput, hfollow input hinput⟩⟩

/-- An edge that a search follows is one that an input gives. -/
theorem LeadsTo.spends (h : LeadsTo r policy hash owner) : Spends r policy hash owner := by
  obtain ⟨-, t, ht, input, hinput, howner⟩ := h
  exact ⟨t, ht, input, (List.takeWhile_prefix _).subset hinput, howner⟩

/-- From a transaction that can be passed a search follows all of them. -/
theorem Spends.leadsTo (h : Spends r policy hash owner) (hpass : Passable r policy hash) :
    LeadsTo r policy hash owner := by
  obtain ⟨hexpand, hnot⟩ := passable_iff.mp hpass
  obtain ⟨t, ht, input, hinput, howner⟩ := h
  refine ⟨hexpand, t, ht, input, ?_, howner⟩
  rw [tracedInputs_eq_inputs ((not_mints_iff ht).mp hnot)]
  exact hinput

/-- Where a search leads to, a path leads to as well. -/
theorem Walk.path (h : Walk r policy start n hash) : Path r policy start n hash := by
  induction h with
  | start => exact .start
  | step _ hedge ih => exact ih.step hedge.spends

/-- If a search passes all that it leads to, then it misses nothing. -/
theorem Path.walk (hall : ∀ n hash, Walk r policy start n hash → Passable r policy hash)
    (h : Path r policy start n hash) : Walk r policy start n hash := by
  induction h with
  | start => exact .start
  | step _ hedge ih => exact ih.step (hedge.leadsTo (hall _ _ ih))

/-- The distance of a transaction is the least length of a walk to it. -/
theorem atDistance_iff_isLeast :
    AtDistance r policy start n hash ↔ IsLeast {n | Walk r policy start n hash} n := by
  refine and_congr_right fun _ => ?_
  constructor
  · intro hnone m hwalk
    exact Nat.le_of_not_lt fun hlt => hnone m hlt hwalk
  · intro hle m hlt hwalk
    have : n ≤ m := hle hwalk
    omega

/-- If a search passes all that it leads to, then the distances are those of the search. -/
theorem mem_distances_iff (hall : ∀ n hash, Walk r policy start n hash → Passable r policy hash) :
    n ∈ distances r policy start ↔ ∃ hash, AtDistance r policy start n hash := by
  have hsame (m : ℕ) (hash : TxHash) : Path r policy start m hash ↔ Walk r policy start m hash :=
    ⟨Path.walk hall, Walk.path⟩
  change (∃ hash, IsLeast {m | Path r policy start m hash} n) ↔ _
  simp only [atDistance_iff_isLeast, hsame]

/-- A search that is lost has passed all that it leads to. -/
theorem TraceEnds.passable {depth : ℕ} (h : TraceEnds r c start depth .exhausted)
    (hwalk : Walk r c.ownerPolicy start n hash) : Passable r c.ownerPolicy hash := by
  obtain ⟨-, last, before, hlevel, hends⟩ := h.exists_level
  cases hends with
  | exhausted hx hmint hnew => exact passable_iff.mpr (hlevel.settled hx hmint hnew hwalk)

/-- It is lost at the greatest distance at which there is a transaction. -/
theorem TraceEnds.isGreatest {depth : ℕ} (h : TraceEnds r c start depth .exhausted) :
    IsGreatest (distances r c.ownerPolicy start) depth := by
  have hmem (m : ℕ) := mem_distances_iff (n := m) fun _ _ => h.passable
  obtain ⟨hsome, last, before, hlevel, hends⟩ := h.exists_level
  constructor
  · exact (hmem depth).mpr hsome
  · intro m hm
    obtain ⟨hash, hat⟩ := (hmem m).mp hm
    by_contra hfar
    -- Something further away would lie one step behind the last level, where there is nothing.
    obtain ⟨next, hnext⟩ := hat.exists_of_le (Nat.lt_of_not_le hfar)
    cases hends with
    | exhausted hx _ hnew => exact (hlevel.isEmpty_unmet_iff hx).mp hnew next hnext

/-- A search without a limit that passes all that it leads to is lost. -/
theorem TraceEnds.eq_exhausted {depth : ℕ} {how : SearchEnd}
    (h : TraceEnds r { c with maxDepth := none } start depth how)
    (hall : ∀ n hash, Walk r c.ownerPolicy start n hash → Passable r c.ownerPolicy hash) :
    how = .exhausted := by
  obtain ⟨-, last, before, hlevel, hends⟩ := h.exists_level
  have hpass (hash : TxHash) (hat : AtDistance r c.ownerPolicy start depth hash) :
      Expandable r c.ownerPolicy hash ∧ ¬Mints r hash :=
    passable_iff.mp (hall depth hash hat.1)
  cases hends with
  | failed he =>
    obtain ⟨x, hx⟩ := hlevel.exists_expanded_iff.mpr fun hash hat => (hpass hash hat).1
    cases he.symm.trans hx
  | minted hx hmint =>
    obtain ⟨hash, hat, hmints⟩ := (hlevel.minted_iff_exists hx).mp hmint
    exact absurd hmints (hpass hash hat).2
  | exhausted _ _ _ => rfl
  | limited _ _ _ hlimit => cases hlimit

/-- A trace without a limit is lost exactly when every transaction that can be reached from the start is
fetched and expanded without a failure and none of them has an input that mints. It is lost at the
greatest distance of a transaction that can be reached. -/
theorem trace_exhausted_iff (r : Reader) (c : TraceConfig) (start : TxHash) :
    ((∃ k, trace r { c with maxDepth := none } start = .error (.exhausted start k)) ↔
      ∀ n hash, Path r c.ownerPolicy start n hash → Passable r c.ownerPolicy hash) ∧
    ∀ origin k, trace r { c with maxDepth := none } start = .error (.exhausted origin k) →
      origin = start ∧ IsGreatest (distances r c.ownerPolicy start) k := by
  refine ⟨⟨?lost, ?nothing⟩, ?greatest⟩
  case lost =>
    intro hlost n hash hpath
    obtain ⟨k, htrace⟩ := hlost
    have hends := (traceEnds_of_exhausted htrace).2
    exact hends.passable (hpath.walk fun _ _ => hends.passable)
  case nothing =>
    intro hall
    obtain ⟨depth, how, hends⟩ := exists_traceEnds r { c with maxDepth := none } start
    obtain rfl := hends.eq_exhausted fun n hash hwalk => hall n hash hwalk.path
    exact ⟨depth, hends.eq_error rfl⟩
  case greatest =>
    intro origin k htrace
    obtain ⟨horigin, hends⟩ := traceEnds_of_exhausted htrace
    exact ⟨horigin, hends.isGreatest⟩

end RingDepth.Trace
