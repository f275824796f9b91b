import Mathlib.Data.Nat.Find
import RingDepth.Proofs.Trace.Distance

/-!
# Traces of graded transactions

Suppose that transactions have grades, so that each graded one can be expanded, mints or leads somewhere,
and leads to lower grades only. Going back from a graded transaction then ends at one that mints after
at most as many steps as its grade, and no transaction on the way can make the trace fail.

Nothing is asked of transactions without a grade: no walk from a graded one meets them.
-/

namespace RingDepth.Trace

/-- Grades of transactions that fall along every edge. A graded transaction can be expanded, and it leads
somewhere unless it mints. -/
structure Graded (r : Reader) (policy : OwnerPolicy) (grade : TxHash → ℕ → Prop) : Prop where
  expandable : ∀ hash i, grade hash i → Expandable r policy hash
  leads : ∀ hash i, grade hash i → ¬Mints r hash → ∃ owner, LeadsTo r policy hash owner
  lower : ∀ hash i owner, grade hash i → LeadsTo r policy hash owner → ∃ j < i, grade owner j

variable {r : Reader} {policy : OwnerPolicy} {start : TxHash} {grade : TxHash → ℕ → Prop}

/-- A walk can begin one edge earlier. -/
theorem Walk.prepend {first : TxHash} (hedge : LeadsTo r policy first start) {n : ℕ} {hash : TxHash}
    (h : Walk r policy start n hash) : Walk r policy first (n + 1) hash := by
  induction h with
  | start => exact .step .start hedge
  | step _ hlast ih => exact ih.step hlast

namespace Graded

/-- Each step of a walk lowers the grade. -/
theorem of_walk (h : Graded r policy grade) {i n : ℕ} {hash : TxHash} (hstart : grade start i)
    (hwalk : Walk r policy start n hash) : ∃ j, j + n ≤ i ∧ grade hash j := by
  induction hwalk with
  | start => exact ⟨i, le_rfl, hstart⟩
  | step _ hedge ih =>
    obtain ⟨j, hj, hgrade⟩ := ih
    obtain ⟨k, hk, howner⟩ := h.lower _ _ _ hgrade hedge
    exact ⟨k, by omega, howner⟩

/-- A walk from a graded transaction meets one that mints, in at most as many steps as the grade. -/
theorem exists_walk_mints (h : Graded r policy grade) {i : ℕ} (hstart : grade start i) :
    ∃ n ≤ i, ∃ hash, Walk r policy start n hash ∧ Mints r hash := by
  induction i using Nat.strong_induction_on generalizing start with
  | _ i ih =>
    by_cases hmint : Mints r start
    · exact ⟨0, Nat.zero_le i, start, .start, hmint⟩
    · obtain ⟨owner, hedge⟩ := h.leads start i hstart hmint
      obtain ⟨j, hj, howner⟩ := h.lower start i owner hstart hedge
      obtain ⟨n, hn, hash, hwalk, hmint⟩ := ih j hj howner
      exact ⟨n + 1, by omega, hash, hwalk.prepend hedge, hmint⟩

/-- The nearest transaction that mints is no further away than the grade tells. -/
theorem exists_nearestMint (h : Graded r policy grade) {i : ℕ} (hstart : grade start i) :
    ∃ depth ≤ i, NearestMint r policy start depth := by
  classical
  obtain ⟨n, hn, hmet⟩ := h.exists_walk_mints hstart
  have hexists : ∃ n, ∃ hash, Walk r policy start n hash ∧ Mints r hash := ⟨n, hmet⟩
  -- The least length of a walk to one that mints is a distance, as no shorter walk leads there.
  obtain ⟨hash, hwalk, hmint⟩ := Nat.find_spec hexists
  refine ⟨Nat.find hexists, (Nat.find_min' hexists hmet).trans hn, ?mints, ?nearer, ?expandable⟩
  case mints =>
    exact ⟨hash, ⟨hwalk, fun m hm hshort => Nat.find_min hexists hm ⟨hash, hshort, hmint⟩⟩, hmint⟩
  case nearer =>
    intro m hm other hother hmints
    exact Nat.find_min hexists hm ⟨other, hother.1, hmints⟩
  case expandable =>
    intro m _ other hother
    obtain ⟨j, -, hgrade⟩ := h.of_walk hstart hother.1
    exact h.expandable other j hgrade

end Graded

/-- The nearest transaction that mints is at depth zero exactly if it is the start. -/
theorem NearestMint.eq_zero_iff {depth : ℕ} (h : NearestMint r policy start depth) :
    depth = 0 ↔ Mints r start := by
  refine ⟨fun hzero => ?_, fun hmint => ?_⟩
  · subst hzero
    obtain ⟨hash, hhash, hmint⟩ := h.mints
    exact atDistance_zero_iff.mp hhash ▸ hmint
  · by_contra hpos
    exact h.none_nearer 0 (Nat.pos_of_ne_zero hpos) start (atDistance_zero_iff.mpr rfl) hmint

/-- A trace without a limit finds the depth of the nearest transaction that mints. -/
theorem NearestMint.exists_trace_eq_ok {c : TraceConfig} (hlimit : c.maxDepth = none) {depth : ℕ}
    (h : NearestMint r c.ownerPolicy start depth) :
    ∃ work, trace r c start = .ok { start, depth, work } := by
  have hmember : start ∈ members (Std.ExtTreeSet.ofList [start]) := by simp
  have hfuel : hashCount < (members (Std.ExtTreeSet.ofList [start])).card + hashCount :=
    Nat.lt_add_of_pos_left (Finset.card_pos.mpr ⟨start, hmember⟩)
  exact exists_trace_eq_ok_iff.mpr ((result_search_eq_ok_iff hlimit level_start hfuel).mpr h)

end RingDepth.Trace
