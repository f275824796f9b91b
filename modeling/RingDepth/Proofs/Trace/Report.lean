import Mathlib.Algebra.GroupWithZero.Nat
import Mathlib.Algebra.Order.BigOperators.Group.List
import RingDepth.Proofs.Hex
import RingDepth.Proofs.Text.Lines
import RingDepth.Proofs.Trace.Middle

/-!
# What a report tells

The summary of some depths is described without an order in which they stand: by their number, by their sum, and by the
depths in the middle. There is one summary of which this holds, so depths in another order have the same one. The sum
in the description is exact, and the accumulator holds it: there are no more depths than a 64-bit counter counts, and
each is one that such a counter tells.

A report has a line for each outcome and two for the summary. No line feed is written within a line, so these are the
lines of its text.
-/

namespace RingDepth

namespace DepthSummary

variable {depths others front back : List ℕ} {depth : ℕ} {s s' : DepthSummary}

/-- One more depth is added to the sum. -/
theorem sumOf_concat (depths : List ℕ) (depth : ℕ) : sumOf (depths ++ [depth]) = sumOf depths + .ofNat 128 depth := by
  rw [sumOf, List.foldl_concat, ← sumOf]

/-- The accumulator holds a sum that fits. -/
theorem toNat_sumOf (hfits : depths.sum < 2 ^ 128) : (sumOf depths).toNat = depths.sum := by
  induction depths using List.reverseRecOn with
  | nil => rfl
  | append_singleton depths depth ih =>
    rw [List.sum_append, List.sum_singleton] at hfits ⊢
    rw [sumOf_concat, BitVec.toNat_add, BitVec.toNat_ofNat, Nat.add_mod_mod, ih (by omega), Nat.mod_eq_of_lt hfits]

/-- If the sum fits, then no addition on the way to it overflows. -/
theorem uaddOverflow_sumOf (hfits : (front ++ depth :: back).sum < 2 ^ 128) :
    (sumOf front).uaddOverflow (.ofNat 128 depth) = false := by
  rw [List.sum_append, List.sum_cons] at hfits
  rw [BitVec.uaddOverflow, toNat_sumOf (by omega), BitVec.toNat_ofNat, Nat.mod_eq_of_lt (by omega)]
  exact decide_eq_false (by omega)

/-- Depths of 64 bits, no more than 64 bits count, have a sum of 128 bits. -/
theorem sum_lt (hdepths : ∀ depth ∈ depths, depth < UInt64.size) (hlength : depths.length < UInt64.size) :
    depths.sum < 2 ^ 128 := by
  have hsum := depths.sum_le_card_nsmul UInt64.size fun depth h => Nat.le_of_lt (hdepths depth h)
  calc depths.sum
    _ ≤ depths.length * UInt64.size := hsum
    _ < UInt64.size * UInt64.size := Nat.mul_lt_mul_of_pos_right hlength (by decide)
    _ = 2 ^ 128 := by decide

/-- Whether a summary is that of some depths: it tells their number and their mean, and the median is the
depth in the middle or formed from the two in the middle. -/
structure Aggregates (depths : List ℕ) (s : DepthSummary) : Prop where
  count_eq : s.count = depths.length
  mean_eq : s.mean = Binary64.ofNat depths.sum / Binary64.ofNat depths.length
  median_odd : depths.length % 2 = 1 →
    ∃ middle, MiddlePair depths middle middle ∧ s.median = Binary64.ofNat middle
  median_even : depths.length % 2 = 0 →
    ∃ lower upper, MiddlePair depths lower upper ∧ s.median = (Binary64.ofNat lower + Binary64.ofNat upper) / 2

/-- The order of the depths does not matter. -/
theorem Aggregates.perm (h : s.Aggregates depths) (hperm : others.Perm depths) : s.Aggregates others where
  count_eq := by rw [h.count_eq, hperm.length_eq]
  mean_eq := by rw [h.mean_eq, hperm.length_eq, hperm.sum_eq]
  median_odd hodd := by
    rw [hperm.length_eq] at hodd
    obtain ⟨middle, hmiddle, hmedian⟩ := h.median_odd hodd
    exact ⟨middle, hmiddle.perm hperm, hmedian⟩
  median_even heven := by
    rw [hperm.length_eq] at heven
    obtain ⟨lower, upper, hmiddle, hmedian⟩ := h.median_even heven
    exact ⟨lower, upper, hmiddle.perm hperm, hmedian⟩

/-- There is one such summary. -/
theorem Aggregates.unique (h : s.Aggregates depths) (h' : s'.Aggregates depths) : s = s' := by
  have hmedian : s.median = s'.median := by
    obtain heven | hodd := Nat.mod_two_eq_zero_or_one depths.length
    · obtain ⟨lower, upper, hmiddle, hmedian⟩ := h.median_even heven
      obtain ⟨lower', upper', hmiddle', hmedian'⟩ := h'.median_even heven
      obtain ⟨rfl, rfl⟩ := hmiddle.unique hmiddle'
      rw [hmedian, hmedian']
    · obtain ⟨middle, hmiddle, hmedian⟩ := h.median_odd hodd
      obtain ⟨middle', hmiddle', hmedian'⟩ := h'.median_odd hodd
      obtain ⟨rfl, -⟩ := hmiddle.unique hmiddle'
      rw [hmedian, hmedian']
  cases s
  cases s'
  rw [mk.injEq]
  exact ⟨h.count_eq.trans h'.count_eq.symm, h.mean_eq.trans h'.mean_eq.symm, hmedian⟩

/-- Depths are summarized if there are some. -/
theorem exists_ofDepths?_iff : (∃ s, ofDepths? depths = some s) ↔ depths ≠ [] := by
  rw [ofDepths?, ← List.isEmpty_eq_false_iff]
  cases depths.isEmpty <;> simp

/-- The summary is that of the depths if the accumulator holds their sum. -/
theorem aggregates_of_ofDepths? (hfits : depths.sum < 2 ^ 128) (h : ofDepths? depths = some s) :
    s.Aggregates depths := by
  have hsome := exists_ofDepths?_iff.mp ⟨s, h⟩
  rw [ofDepths?, if_neg (by simpa using hsome), Option.some.injEq] at h
  subst h
  obtain ⟨lower, upper, hmiddle⟩ := exists_middlePair hsome
  refine ⟨rfl, ?_, fun hodd => ?_, fun heven => ?_⟩
  · show meanOf depths = _
    rw [meanOf, toNat_sumOf hfits]
  · obtain rfl := hmiddle.eq_of_odd hodd
    exact ⟨lower, hmiddle, by rw [hmiddle.medianOf_eq, if_pos hodd]⟩
  · exact ⟨lower, upper, hmiddle, by rw [hmiddle.medianOf_eq, if_neg (by omega)]⟩

/-- Depths in another order have the same summary. -/
theorem ofDepths?_perm (hfits : depths.sum < 2 ^ 128) (hperm : others.Perm depths) :
    ofDepths? others = ofDepths? depths := by
  by_cases hnil : depths = []
  · subst hnil
    rw [hperm.eq_nil]
  · have hnil' : others ≠ [] := by
      rintro rfl
      exact hnil (List.nil_perm.mp hperm)
    obtain ⟨s, hs⟩ := exists_ofDepths?_iff.mpr hnil
    obtain ⟨s', hs'⟩ := exists_ofDepths?_iff.mpr hnil'
    have haggregates := (aggregates_of_ofDepths? hfits hs).perm hperm
    rw [hs, hs', haggregates.unique (aggregates_of_ofDepths? (by rwa [hperm.sum_eq]) hs')]

end DepthSummary

/-- No line feed is written for a natural number. -/
theorem lineFeed_not_mem_toDigits (n : ℕ) : '\n' ∉ Nat.toDigits 10 n :=
  fun h => absurd (Nat.isDigit_of_mem_toDigits (by decide) (by decide) h) (by decide)

/-- No line feed is written for a natural number. -/
theorem lineFeed_not_mem_toString (n : ℕ) : '\n' ∉ (toString n).toList := by
  rw [Nat.toString_eq_repr, Nat.toList_repr]
  exact lineFeed_not_mem_toDigits n

/-- No line feed is written for an identifier. -/
theorem Identifier.lineFeed_not_mem_toString {kind : Identifier.Kind} (x : Identifier kind) :
    '\n' ∉ (toString x).toList :=
  fun h => absurd (Hex.isDigit_of_mem_toText _ h) (by decide)

/-- A point between digits is no line feed. -/
theorem Decimal.lineFeed_not_mem_withPoint {digits : List Char} (h : '\n' ∉ digits) (places : ℕ) :
    '\n' ∉ withPoint places digits := by
  have hpadded : '\n' ∉ List.replicate (places + 1 - digits.length) '0' ++ digits := by
    rw [List.mem_append, not_or]
    exact ⟨fun hzero => absurd (List.eq_of_mem_replicate hzero) (by decide), h⟩
  rw [withPoint, List.mem_append, List.mem_cons]
  rintro (hwhole | hpoint | hplaces)
  · exact hpadded (List.mem_of_mem_take hwhole)
  · exact absurd hpoint (by decide)
  · exact hpadded (List.mem_of_mem_drop hplaces)

/-- No line feed is written for a decimal. -/
theorem Decimal.lineFeed_not_mem_toText (d : Decimal) : '\n' ∉ d.toText.toList := by
  rw [toText]
  split
  · rw [String.toList_ofList]
    exact lineFeed_not_mem_toDigits _
  · rw [String.toList_ofList]
    exact lineFeed_not_mem_withPoint (lineFeed_not_mem_toDigits _) _

/-- No line feed is written for a number with 53 binary digits. -/
theorem Binary64.lineFeed_not_mem_toString (x : Binary64) : '\n' ∉ (toString x).toList := by
  show '\n' ∉ x.toText.toList
  rw [toText]
  split
  · decide
  · exact x.shortest.lineFeed_not_mem_toText

namespace DepthReport

variable {outcomes : List TraceOutcome} {r : DepthReport}

/-- What is written for a transaction is one line. -/
theorem lineFeed_not_mem_line (hash : TxHash) (depth : ℕ) : '\n' ∉ (line hash depth).toList := by
  unfold line
  simp only [String.toList_append, List.mem_append, not_or]
  exact ⟨⟨⟨by decide, hash.lineFeed_not_mem_toString⟩, by decide⟩, lineFeed_not_mem_toString depth⟩

/-- What a report writes in each place is one line. -/
theorem lineFeed_not_mem_of_mem_lines {text : String} (h : text ∈ r.lines) : '\n' ∉ text.toList := by
  rw [lines, List.mem_append] at h
  obtain hdepth | hsummary := h
  · obtain ⟨⟨hash, depth⟩, -, rfl⟩ := List.mem_map.mp hdepth
    exact lineFeed_not_mem_line hash depth
  · rw [List.mem_cons, List.mem_singleton] at hsummary
    obtain rfl | rfl := hsummary
    all_goals
      simp only [String.toList_append, List.mem_append, not_or]
      exact ⟨⟨⟨by decide, lineFeed_not_mem_toString _⟩, by decide⟩, Binary64.lineFeed_not_mem_toString _⟩

/-- The lines of the text are those of the report. -/
theorem rawLines_toText (r : DepthReport) : Text.rawLines r.toText = r.lines.map String.toList :=
  Text.rawLines_intercalate (by simp [lines]) fun _ => lineFeed_not_mem_of_mem_lines

/-- Whether a report is the one on some outcomes: it has the depth of each transaction and the summary of the
depths, and its text has a line for each of them, in order, and then those of the mean and of the median. -/
structure Tells (outcomes : List TraceOutcome) (r : DepthReport) : Prop where
  depths_eq : r.depths = outcomes.map fun outcome => (outcome.start, outcome.depth)
  aggregates : r.summary.Aggregates (outcomes.map TraceOutcome.depth)
  rawLines_toText : Text.rawLines r.toText =
    ((outcomes.map fun outcome => line outcome.start outcome.depth) ++
      [s!"Average min depth for {r.summary.count} transaction(s): {r.summary.mean}",
        s!"Median min depth for {r.summary.count} transaction(s): {r.summary.median}"]).map String.toList

/-- A report has the depths of the outcomes and their summary. -/
theorem ofOutcomes?_eq_some_iff : ofOutcomes? outcomes = some r ↔
    r.depths = outcomes.map (fun outcome => (outcome.start, outcome.depth)) ∧
      DepthSummary.ofDepths? (outcomes.map TraceOutcome.depth) = some r.summary := by
  rw [ofOutcomes?, ofDepths?, List.map_map, Option.map_eq_some_iff]
  constructor
  · rintro ⟨summary, hsummary, rfl⟩
    exact ⟨rfl, hsummary⟩
  · rintro ⟨hdepths, hsummary⟩
    exact ⟨r.summary, hsummary, by rw [← hdepths]⟩

/-- Outcomes are reported if there are some. -/
theorem exists_ofOutcomes?_iff : (∃ r, ofOutcomes? outcomes = some r) ↔ outcomes ≠ [] := by
  have hsome : outcomes ≠ [] ↔ outcomes.map TraceOutcome.depth ≠ [] := not_congr List.map_eq_nil_iff.symm
  rw [hsome, ← DepthSummary.exists_ofDepths?_iff]
  simp only [ofOutcomes?_eq_some_iff]
  exact ⟨fun ⟨r, _, hsummary⟩ => ⟨r.summary, hsummary⟩, fun ⟨summary, hsummary⟩ => ⟨⟨_, summary⟩, rfl, hsummary⟩⟩

/-- The report is that on the outcomes if the accumulator holds the sum of their depths. -/
theorem tells_of_ofOutcomes? (hfits : (outcomes.map TraceOutcome.depth).sum < 2 ^ 128)
    (h : ofOutcomes? outcomes = some r) : r.Tells outcomes := by
  obtain ⟨hdepths, hsummary⟩ := ofOutcomes?_eq_some_iff.mp h
  refine ⟨hdepths, DepthSummary.aggregates_of_ofDepths? hfits hsummary, ?_⟩
  rw [r.rawLines_toText, lines, hdepths, List.map_map]
  rfl

/-- Depths are summed up without overflow, and they are summarized if there are some. The summary tells their number,
their mean, and the median as it is formed from those in the middle, and depths in another order have the same one. If
they are the depths of some outcomes, then there is a report on these if there are some, and it tells the depth of each
in order and then this summary. -/
theorem aggregates_exact {depths : List ℕ} (hdepths : ∀ depth ∈ depths, depth < UInt64.size)
    (hlength : depths.length < UInt64.size) :
    (∀ front depth back, depths = front ++ depth :: back →
        (DepthSummary.sumOf front).uaddOverflow (.ofNat 128 depth) = false) ∧
      (DepthSummary.sumOf depths).toNat = depths.sum ∧
      ((∃ s, DepthSummary.ofDepths? depths = some s) ↔ depths ≠ []) ∧
      (∀ s, DepthSummary.ofDepths? depths = some s → s.Aggregates depths) ∧
      (∀ others, others.Perm depths → DepthSummary.ofDepths? others = DepthSummary.ofDepths? depths) ∧
      ∀ outcomes, outcomes.map TraceOutcome.depth = depths →
        ((∃ r, ofOutcomes? outcomes = some r) ↔ outcomes ≠ []) ∧
          ∀ r, ofOutcomes? outcomes = some r → r.Tells outcomes := by
  have hfits := DepthSummary.sum_lt hdepths hlength
  refine ⟨?_, DepthSummary.toNat_sumOf hfits, DepthSummary.exists_ofDepths?_iff,
    fun s => DepthSummary.aggregates_of_ofDepths? hfits, fun others => DepthSummary.ofDepths?_perm hfits, ?_⟩
  · rintro front depth back rfl
    exact DepthSummary.uaddOverflow_sumOf hfits
  · rintro outcomes rfl
    exact ⟨exists_ofOutcomes?_iff, fun r => tells_of_ofOutcomes? hfits⟩

/-- The greatest depth twice with two others, in an order that is not theirs. -/
def greatestTwice : List ℕ := [18446744073709551615, 1, 18446744073709551615, 4]

/-- Their sum does not fit a counter of 64 bits, but they are summarized as they are in order. -/
theorem aggregates_exact_greatestTwice :
    (DepthSummary.sumOf greatestTwice).toNat = 36893488147419103235 ∧
      ∃ s, DepthSummary.ofDepths? greatestTwice = some s ∧ s.Aggregates greatestTwice ∧
        DepthSummary.ofDepths? [1, 4, 18446744073709551615, 18446744073709551615] = some s := by
  obtain ⟨-, hsum, hsome, haggregates, hperm, -⟩ :=
    @aggregates_exact greatestTwice (by decide) (by decide)
  obtain ⟨s, hs⟩ := hsome.mpr (by decide)
  exact ⟨hsum, s, hs, haggregates s hs, (hperm _ (by decide)).trans hs⟩

end DepthReport

end RingDepth
