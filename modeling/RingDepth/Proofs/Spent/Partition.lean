import RingDepth.Proofs.Spent.RoundAmounts
import RingDepth.Proofs.Spent.Totals

/-!
# What a report says

A report has one row for each known amount, in ascending order, with the number of its outputs that the store has and
with the number of those that are known to be spent. The status of a row is found by these numbers, and by whether the
amount is round. The totals are sums over the rows, so each total is at most the one over more rows.

This describes the report exactly: comparing known spends with a store gives a report if and only if the report is the
described one, and it gives one if and only if the store counts the outputs of all known amounts and the sums are
counters.
-/

namespace RingDepth

/-- Whether the status of a row is the one that its numbers call for. Rows of zero and of round amounts are
ignored; others are live, may be pruned or are inconsistent if there are more outputs than known spends, as
many, or fewer. -/
structure AmountUsage.Graded (u : AmountUsage) : Prop where
  ignored : u.status = .ignored ↔ u.amount = 0 ∨ DigitAndZeros u.amount.toNat
  live : u.status = .live ↔ u.status ≠ .ignored ∧ u.spent < u.outputs
  prunable : u.status = .prunable ↔ u.status ≠ .ignored ∧ u.outputs = u.spent
  inconsistent : u.status = .inconsistent ↔ u.status ≠ .ignored ∧ u.outputs < u.spent

/-- An amount that is not to be ignored is graded by comparing its numbers. -/
theorem AmountStatus.of_eq {amount outputs spent : UInt64} (h : ¬(amount = 0 ∨ DigitAndZeros amount.toNat)) :
    AmountStatus.of amount outputs spent =
      if spent < outputs then .live else if outputs < spent then .inconsistent else .prunable := by
  rw [of, if_neg]
  rwa [isRound_iff]

/-- The numbers of a row call for one status. -/
theorem AmountUsage.graded_iff (u : AmountUsage) : u.Graded ↔ u.status = .of u.amount u.outputs u.spent := by
  obtain ⟨amount, outputs, spent, status⟩ := u
  by_cases hround : amount = 0 ∨ DigitAndZeros amount.toNat
  · have hof : AmountStatus.of amount outputs spent = .ignored := by
      rw [AmountStatus.of, if_pos]
      rwa [isRound_iff]
    rw [hof]
    constructor
    · intro h
      exact h.ignored.mpr hround
    · rintro rfl
      constructor <;> simp [hround]
  · rw [AmountStatus.of_eq hround]
    constructor
    · intro h
      have hgraded : status ≠ .ignored := fun hignored => hround (h.ignored.mp hignored)
      split_ifs with hlive hover
      · exact h.live.mpr ⟨hgraded, hlive⟩
      · exact h.inconsistent.mpr ⟨hgraded, hover⟩
      · exact h.prunable.mpr ⟨hgraded, UInt64.le_antisymm (UInt64.not_lt.mp hlive) (UInt64.not_lt.mp hover)⟩
    · intro h
      dsimp only at h
      split_ifs at h with hlive hover
      · constructor <;> simp [h, hround, hlive, UInt64.lt_asymm hlive, (UInt64.ne_of_lt hlive).symm]
      · constructor <;> simp [h, hround, hlive, hover, UInt64.ne_of_lt hover]
      · have hequal := UInt64.le_antisymm (UInt64.not_lt.mp hlive) (UInt64.not_lt.mp hover)
        constructor <;> simp [h, hround, hequal]

namespace SpentReport

variable {σ : Type} [Store σ] {s : σ} {counts : SpentCounts} {r r' : SpentReport} {known : List (UInt64 × UInt64)}

/-- Whether a report says what a store and known spends have to do with each other. There is one row for each
known amount, in ascending order, with the outputs that the store has, those known to be spent, and the status
that these call for. The totals are the sums of the rows. -/
structure Describes (s : σ) (counts : SpentCounts) (r : SpentReport) : Prop where
  rows : r.amounts.map (fun u => (u.amount, u.spent)) = counts.toList
  ascending : r.amounts.Pairwise fun u v => u.amount < v.amount
  outputs : ∀ u ∈ r.amounts, Store.outputCount s u.amount = .ok u.outputs
  graded : ∀ u ∈ r.amounts, u.Graded
  sums : r.Sums

/-- Whether a store counts the outputs of all known amounts, and their sum and that of the known spends are
counters. -/
def Comparable (s : σ) (counts : SpentCounts) : Prop :=
  ∃ outputs : UInt64 → UInt64, (∀ amount ∈ counts, Store.outputCount s amount = .ok (outputs amount)) ∧
    (counts.toList.map fun entry => (outputs entry.1).toNat).sum < UInt64.size ∧
    (counts.toList.map fun entry => entry.2.toNat).sum < UInt64.size

/-- Whether each total is at most the ones over more rows. -/
def Nested (r : SpentReport) : Prop :=
  (r.prunable ≤ r.eligibleOutputs ∧ r.eligibleOutputs ≤ r.outputs) ∧
    r.prunable ≤ r.eligibleSpent ∧ r.eligibleSpent ≤ r.spent

/-- The rows that a store counts have its numbers of outputs, and are graded by their numbers. -/
theorem of_mem_counted {u : AmountUsage} (hu : u ∈ counted s known) :
    Store.outputCount s u.amount = .ok u.outputs ∧ u.Graded := by
  induction known with
  | nil => exact absurd hu List.not_mem_nil
  | cons entry known ih =>
    rw [counted] at hu
    cases hcount : Store.outputCount s entry.1 with
    | error e => simp [hcount] at hu
    | ok outputs =>
      rw [hcount] at hu
      obtain rfl | hu := List.mem_cons.mp hu
      · exact ⟨hcount, (AmountUsage.graded_iff _).mpr rfl⟩
      · exact ih hu

/-- If the outputs of all amounts are counted, then there is a row for each amount. -/
theorem map_counted (h : ∀ entry ∈ known, ∃ outputs, Store.outputCount s entry.1 = .ok outputs) :
    (counted s known).map (fun u => (u.amount, u.spent)) = known := by
  induction known with
  | nil => rfl
  | cons entry known ih =>
    obtain ⟨outputs, hcount⟩ := h entry List.mem_cons_self
    rw [counted, hcount, List.map_cons, ih fun other hother => h other (List.mem_cons_of_mem _ hother)]
    rfl

/-- Rows are the ones that a store counts if they have its numbers of outputs and are graded by their numbers. -/
theorem eq_counted {rows : List AmountUsage} (hrows : rows.map (fun u => (u.amount, u.spent)) = known)
    (houtputs : ∀ u ∈ rows, Store.outputCount s u.amount = .ok u.outputs) (hgraded : ∀ u ∈ rows, u.Graded) :
    rows = counted s known := by
  subst hrows
  induction rows with
  | nil => rfl
  | cons u rows ih =>
    rw [List.forall_mem_cons] at houtputs hgraded
    rw [List.map_cons, counted, houtputs.1, ← ih houtputs.2 hgraded.2]
    dsimp only
    rw [row, ← (AmountUsage.graded_iff u).mp hgraded.1]

/-- A store that gives a report has counted the outputs of all amounts. -/
theorem exists_outputCount_of_addKnown (h : addKnown s r known = .ok r') :
    ∀ entry ∈ known, ∃ outputs, Store.outputCount s entry.1 = .ok outputs := by
  induction known generalizing r with
  | nil => simp
  | cons entry known ih =>
    rw [addKnown_cons] at h
    obtain ⟨next, hnext, hrest⟩ := bind_eq_ok_iff.mp h
    rw [List.forall_mem_cons]
    refine ⟨?_, ih hrest⟩
    cases hcount : Store.outputCount s entry.1 with
    | ok outputs => exact ⟨outputs, rfl⟩
    | error e =>
      rw [addAmount, hcount] at hnext
      cases hnext

/-- The rows of a report determine its totals. -/
theorem Sums.eq (h : r.Sums) (h' : r'.Sums) (hrows : r.amounts = r'.amounts) : r = r' := by
  obtain ⟨houtputs, hspent, heligibleOutputs, heligibleSpent, hprunable⟩ := h
  rw [hrows] at houtputs hspent heligibleOutputs heligibleSpent hprunable
  rw [← h'.outputs, UInt64.toNat_inj] at houtputs
  rw [← h'.spent, UInt64.toNat_inj] at hspent
  rw [← h'.eligibleOutputs, UInt64.toNat_inj] at heligibleOutputs
  rw [← h'.eligibleSpent, UInt64.toNat_inj] at heligibleSpent
  rw [← h'.prunable, UInt64.toNat_inj] at hprunable
  cases r
  cases r'
  simp_all

/-- The amounts that are known to be spent ascend. -/
theorem pairwise_toList (counts : SpentCounts) : counts.toList.Pairwise fun e e' => e.1 < e'.1 :=
  counts.ordered_keys_toList.imp Std.compare_eq_lt.mp

/-- The known amounts are those of which there is an entry. -/
theorem mem_iff_exists_entry {amount : UInt64} : amount ∈ counts ↔ ∃ entry ∈ counts.toList, entry.1 = amount := by
  rw [← Std.ExtTreeMap.mem_keys, ← Std.ExtTreeMap.map_fst_toList_eq_keys, List.mem_map]

/-- The rows that a store counts describe what it has to do with known spends. -/
theorem Sums.describes (h : r.Sums) (hamounts : r.amounts = counted s counts.toList)
    (hcounted : ∀ entry ∈ counts.toList, ∃ outputs, Store.outputCount s entry.1 = .ok outputs) :
    Describes s counts r where
  rows := hamounts ▸ map_counted hcounted
  ascending := by
    have hascending := pairwise_toList counts
    rw [← map_counted hcounted, ← hamounts, List.pairwise_map] at hascending
    exact hascending
  outputs u hu := (of_mem_counted (hamounts ▸ hu)).1
  graded u hu := (of_mem_counted (hamounts ▸ hu)).2
  sums := h

/-- Comparing gives a report if and only if the report describes. -/
theorem analyze_eq_ok_iff : analyze s counts = .ok r ↔ Describes s counts r := by
  have hcases := sums_empty.addKnown_cases s counts.toList
  rw [List.nil_append] at hcases
  rw [analyze, ← addKnown]
  constructor
  · intro h
    obtain ⟨r', hr', hsums, hamounts⟩ | ⟨e, hfails, -⟩ | ⟨hhalts, -⟩ := hcases
    · obtain rfl : r = r' := Except.ok.inj (h.symm.trans hr')
      exact hsums.describes hamounts (exists_outputCount_of_addKnown h)
    · cases h.symm.trans hfails
    · cases h.symm.trans hhalts
  · intro h
    have hamounts := eq_counted h.rows h.outputs h.graded
    obtain ⟨r', hr', hsums, hamounts'⟩ | ⟨e, -, ⟨entry, hentry, he⟩, -⟩ | ⟨-, hlarge⟩ := hcases
    · rw [hr', hsums.eq h.sums (hamounts'.trans hamounts.symm)]
    · rw [← h.rows] at hentry
      obtain ⟨u, hu, rfl⟩ := List.mem_map.mp hentry
      cases he.symm.trans (h.outputs u hu)
    · exact absurd (hamounts ▸ h.sums.fits) hlarge

/-- The sums over all rows are those of what a store counts, and of what is known. -/
theorem fits_counted_iff {outputs : UInt64 → UInt64}
    (h : ∀ entry ∈ known, Store.outputCount s entry.1 = .ok (outputs entry.1)) :
    Fits (counted s known) ↔ (known.map fun entry => (outputs entry.1).toNat).sum < UInt64.size ∧
      (known.map fun entry => entry.2.toNat).sum < UInt64.size := by
  have hrows := map_counted fun entry hentry => ⟨_, h entry hentry⟩
  have houtputs : columnSum AmountUsage.outputs (counted s known) =
      (known.map fun entry => (outputs entry.1).toNat).sum := by
    conv_rhs => rw [← hrows, List.map_map]
    apply congrArg List.sum
    apply List.map_congr_left
    intro u hu
    have hentry : (u.amount, u.spent) ∈ known := hrows ▸ List.mem_map_of_mem hu
    exact congrArg UInt64.toNat (Except.ok.inj ((of_mem_counted hu).1.symm.trans (h _ hentry)))
  have hspent : columnSum AmountUsage.spent (counted s known) = (known.map fun entry => entry.2.toNat).sum := by
    conv_rhs => rw [← hrows, List.map_map]
    rfl
  rw [Fits, houtputs, hspent]

/-- Comparing gives a report if and only if the sums are counters. -/
theorem exists_analyze_eq_ok_iff : (∃ r, analyze s counts = .ok r) ↔ Comparable s counts := by
  constructor
  · rintro ⟨r, hr⟩
    have hdescribes := analyze_eq_ok_iff.mp hr
    have hcounted : ∀ amount, ∃ outputs, amount ∈ counts → Store.outputCount s amount = .ok outputs := by
      intro amount
      by_cases hamount : amount ∈ counts
      · obtain ⟨entry, hentry, rfl⟩ := mem_iff_exists_entry.mp hamount
        obtain ⟨outputs, hcount⟩ := exists_outputCount_of_addKnown hr entry hentry
        exact ⟨outputs, fun _ => hcount⟩
      · exact ⟨0, fun h => absurd h hamount⟩
    choose outputs houtputs using hcounted
    have hfits := hdescribes.sums.fits
    rw [eq_counted hdescribes.rows hdescribes.outputs hdescribes.graded,
      fits_counted_iff fun entry hentry => houtputs _ (mem_iff_exists_entry.mpr ⟨entry, hentry, rfl⟩)] at hfits
    exact ⟨outputs, houtputs, hfits⟩
  · rintro ⟨outputs, houtputs, hsums⟩
    have hcounted : ∀ entry ∈ counts.toList, Store.outputCount s entry.1 = .ok (outputs entry.1) :=
      fun entry hentry => houtputs _ (mem_iff_exists_entry.mpr ⟨entry, hentry, rfl⟩)
    rw [← fits_counted_iff hcounted] at hsums
    obtain ⟨r, hr, -⟩ | ⟨e, -, ⟨entry, hentry, he⟩, -⟩ | ⟨-, hlarge⟩ := sums_empty.addKnown_cases s counts.toList
    · exact ⟨r, hr⟩
    · cases he.symm.trans (hcounted entry hentry)
    · exact absurd hsums hlarge

/-- Each total is at most the ones over more rows. -/
theorem Describes.nested (h : Describes s counts r) : r.Nested := by
  have hrows : r.amounts.filter (fun u => u.status = .prunable) =
      (r.amounts.filter fun u => u.status ≠ .ignored).filter fun u => u.status = .prunable := by
    rw [List.filter_filter]
    apply List.filter_congr
    intro u _
    cases u.status <;> rfl
  have hsame : columnSum AmountUsage.spent (r.amounts.filter fun u => u.status = .prunable) =
      columnSum AmountUsage.outputs (r.amounts.filter fun u => u.status = .prunable) := by
    apply congrArg List.sum
    apply List.map_congr_left
    intro u hu
    obtain ⟨hu, hprunable⟩ := List.mem_filter.mp hu
    rw [((h.graded u hu).prunable.mp (of_decide_eq_true hprunable)).2]
  simp only [Nested, UInt64.le_iff_toNat_le, h.sums.prunable, h.sums.eligibleOutputs, h.sums.eligibleSpent,
    h.sums.outputs, h.sums.spent]
  refine ⟨⟨?_, columnSum_filter_le _ _ _⟩, ?_, columnSum_filter_le _ _ _⟩
  · rw [hsame, hrows]
    exact columnSum_filter_le _ _ _
  · rw [hrows]
    exact columnSum_filter_le _ _ _

/-- Comparing gives exactly the report that describes what a store and known spends have to do with each other, in
which each total is at most the ones over more rows. It gives one if and only if the store counts the outputs of all
known amounts, and the sums are counters. -/
theorem analyze_describes (s : σ) (counts : SpentCounts) :
    ((∃ r, analyze s counts = .ok r) ↔ Comparable s counts) ∧
      ∀ r, analyze s counts = .ok r ↔ Describes s counts r ∧ r.Nested := by
  refine ⟨exists_analyze_eq_ok_iff, fun r => ?_⟩
  rw [analyze_eq_ok_iff]
  exact ⟨fun h => ⟨h, h.nested⟩, And.left⟩

end SpentReport

end RingDepth
