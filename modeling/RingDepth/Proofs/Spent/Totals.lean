import Mathlib.Algebra.Order.BigOperators.Group.List
import RingDepth.Proofs.Spent.Sections
import RingDepth.Spent.Analysis
import RingDepth.Store.Memory

/-!
# The totals of a report

The totals of a report are the sums of its rows: over all rows, over those that are not ignored, and over those that
may be pruned. Each of them is counted in a counter of its own, but rows that are left out make no sum greater. So
adding a row halts exactly if a counter does not hold the sum over all rows, of the outputs or of those that are known
to be spent.

A listing is protected against sums that no counter holds only within a line. So reading it halts exactly if the lines
of an amount stand together for more outputs than a counter tells, and what was read may still be too much for a
report.
-/

namespace RingDepth

/-- If a counter holds the exact sum, then it is raised to it. -/
theorem exists_addCounter_toNat {ε : Type} {a b : UInt64} (h : a.toNat + b.toNat < UInt64.size) :
    ∃ c : UInt64, (addCounter a b : Except (Halt ε) UInt64) = .ok c ∧ c.toNat = a.toNat + b.toNat :=
  (exists_addCounter h).imp fun _ hc => ⟨hc, addCounter_eq_ok_iff.mp hc⟩

namespace SpentReport

variable {r : SpentReport} {u : AmountUsage}

/-- The sum of a column of rows. -/
def columnSum (column : AmountUsage → UInt64) (rows : List AmountUsage) : ℕ :=
  (rows.map fun u => (column u).toNat).sum

/-- Whether the totals of a report are the sums of its rows: of all rows, of those that are not ignored, and
of those that may be pruned. -/
structure Sums (r : SpentReport) : Prop where
  outputs : r.outputs.toNat = columnSum AmountUsage.outputs r.amounts
  spent : r.spent.toNat = columnSum AmountUsage.spent r.amounts
  eligibleOutputs : r.eligibleOutputs.toNat =
    columnSum AmountUsage.outputs (r.amounts.filter fun u => u.status ≠ .ignored)
  eligibleSpent : r.eligibleSpent.toNat = columnSum AmountUsage.spent (r.amounts.filter fun u => u.status ≠ .ignored)
  prunable : r.prunable.toNat = columnSum AmountUsage.spent (r.amounts.filter fun u => u.status = .prunable)

/-- An empty report has the sums of no rows. -/
theorem sums_empty : Sums {} := ⟨rfl, rfl, rfl, rfl, rfl⟩

/-- Rows that are left out make no sum greater. -/
theorem columnSum_filter_le (column : AmountUsage → UInt64) (p : AmountUsage → Bool) (rows : List AmountUsage) :
    columnSum column (rows.filter p) ≤ columnSum column rows :=
  (List.filter_sublist.map _).sum_le_sum fun _ _ => Nat.zero_le _

/-- A row adds what stands in it. -/
theorem columnSum_concat (column : AmountUsage → UInt64) (rows : List AmountUsage) (u : AmountUsage) :
    columnSum column (rows ++ [u]) = columnSum column rows + (column u).toNat := by
  rw [columnSum, List.map_append, List.sum_append, ← columnSum]
  rfl

/-- But only if it is not left out. -/
theorem columnSum_filter_concat (column : AmountUsage → UInt64) (p : AmountUsage → Bool) (rows : List AmountUsage)
    (u : AmountUsage) :
    columnSum column ((rows ++ [u]).filter p) =
      columnSum column (rows.filter p) + if p u then (column u).toNat else 0 := by
  rw [List.filter_append]
  by_cases hp : p u
  · rw [List.filter_singleton, hp, if_pos rfl]
    exact columnSum_concat _ _ _
  · rw [List.filter_singleton, Bool.eq_false_of_not_eq_true hp, if_neg Bool.false_ne_true, Nat.add_zero]
    exact congrArg _ (List.append_nil _)

/-- A row is added if counters hold the sums over all rows. -/
theorem Sums.exists_add (h : r.Sums) (ε : Type) (houtputs : r.outputs.toNat + u.outputs.toNat < UInt64.size)
    (hspent : r.spent.toNat + u.spent.toNat < UInt64.size) :
    ∃ r', (r.add u : Except (Halt ε) SpentReport) = .ok r' ∧ r'.Sums ∧ r'.amounts = r.amounts ++ [u] := by
  obtain ⟨outputs, hadd, hsum⟩ := exists_addCounter_toNat (ε := ε) houtputs
  obtain ⟨spent, hadd', hsum'⟩ := exists_addCounter_toNat (ε := ε) hspent
  -- The sums over the rows that are not left out are not greater, so their counters hold them as well.
  have heligible := columnSum_filter_le AmountUsage.outputs (fun u => u.status ≠ .ignored) r.amounts
  have heligible' := columnSum_filter_le AmountUsage.spent (fun u => u.status ≠ .ignored) r.amounts
  have hprunable := columnSum_filter_le AmountUsage.spent (fun u => u.status = .prunable) r.amounts
  rw [← h.outputs, ← h.eligibleOutputs] at heligible
  rw [← h.spent, ← h.eligibleSpent] at heligible'
  rw [← h.spent, ← h.prunable] at hprunable
  obtain ⟨eligibleOutputs, hadd₁, hsum₁⟩ :=
    exists_addCounter_toNat (ε := ε) (a := r.eligibleOutputs) (b := u.outputs) (by omega)
  obtain ⟨eligibleSpent, hadd₂, hsum₂⟩ :=
    exists_addCounter_toNat (ε := ε) (a := r.eligibleSpent) (b := u.spent) (by omega)
  obtain ⟨prunable, hadd₃, hsum₃⟩ := exists_addCounter_toNat (ε := ε) (a := r.prunable) (b := u.spent) (by omega)
  rw [h.outputs, ← columnSum_concat] at hsum
  rw [h.spent, ← columnSum_concat] at hsum'
  rw [h.eligibleOutputs] at hsum₁
  rw [h.eligibleSpent] at hsum₂
  rw [h.prunable] at hsum₃
  by_cases hignored : u.status = .ignored
  · refine ⟨{ r with amounts := r.amounts ++ [u], outputs, spent }, ?_, ⟨hsum, hsum', ?_, ?_, ?_⟩, rfl⟩
    · rw [add, hadd, hadd']
      exact if_pos hignored
    all_goals
      rw [columnSum_filter_concat]
      simp [hignored, h.eligibleOutputs, h.eligibleSpent, h.prunable]
  by_cases hpruned : u.status = .prunable
  · refine ⟨{ r with amounts := r.amounts ++ [u], outputs, spent, eligibleOutputs, eligibleSpent, prunable }, ?_,
      ⟨hsum, hsum', ?_, ?_, ?_⟩, rfl⟩
    · rw [add, hadd, hadd', hadd₁, hadd₂, hadd₃]
      exact (if_neg hignored).trans (if_neg (not_not.mpr hpruned))
    all_goals
      rw [columnSum_filter_concat]
      simp [hpruned, hsum₁, hsum₂, hsum₃]
  · refine ⟨{ r with amounts := r.amounts ++ [u], outputs, spent, eligibleOutputs, eligibleSpent }, ?_,
      ⟨hsum, hsum', ?_, ?_, ?_⟩, rfl⟩
    · rw [add, hadd, hadd', hadd₁, hadd₂]
      exact (if_neg hignored).trans (if_pos hpruned)
    all_goals
      rw [columnSum_filter_concat]
      simp [hignored, hpruned, hsum₁, hsum₂, h.prunable]

/-- Otherwise the adding halts. -/
theorem Sums.add_cases (h : r.Sums) (ε : Type) (u : AmountUsage) :
    (∃ r', (r.add u : Except (Halt ε) SpentReport) = .ok r' ∧ r'.Sums ∧ r'.amounts = r.amounts ++ [u]) ∨
      ((r.add u : Except (Halt ε) SpentReport) = .error .overflow ∧
        (UInt64.size ≤ r.outputs.toNat + u.outputs.toNat ∨ UInt64.size ≤ r.spent.toNat + u.spent.toNat)) := by
  obtain houtputs | houtputs := Nat.lt_or_ge (r.outputs.toNat + u.outputs.toNat) UInt64.size
  · obtain hspent | hspent := Nat.lt_or_ge (r.spent.toNat + u.spent.toNat) UInt64.size
    · exact .inl (h.exists_add ε houtputs hspent)
    · obtain ⟨outputs, hadd⟩ := exists_addCounter (ε := ε) houtputs
      exact .inr ⟨by rw [add, hadd, addCounter_eq_overflow hspent]; rfl, .inr hspent⟩
  · exact .inr ⟨by rw [add, addCounter_eq_overflow houtputs]; rfl, .inl houtputs⟩

/-- Whether counters hold the sums over all rows. -/
def Fits (rows : List AmountUsage) : Prop :=
  columnSum AmountUsage.outputs rows < UInt64.size ∧ columnSum AmountUsage.spent rows < UInt64.size

/-- The totals of a report are sums that counters hold. -/
theorem Sums.fits (h : r.Sums) : Fits r.amounts :=
  ⟨h.outputs ▸ r.outputs.toNat_lt, h.spent ▸ r.spent.toNat_lt⟩

/-- Rows that do not fit do not fit among others. -/
theorem Fits.front {rows more : List AmountUsage} (h : Fits (rows ++ more)) : Fits rows := by
  have hle (column : AmountUsage → UInt64) : columnSum column rows ≤ columnSum column (rows ++ more) := by
    rw [columnSum, columnSum, List.map_append, List.sum_append]
    exact Nat.le_add_right _ _
  exact ⟨(hle _).trans_lt h.1, (hle _).trans_lt h.2⟩

/-- The row of an amount. -/
def row (amount outputs spent : UInt64) : AmountUsage :=
  { amount, outputs, spent, status := .of amount outputs spent }

/-- The row of an amount is added if the store counts its outputs. -/
theorem addAmount_eq {σ : Type} [Store σ] {s : σ} {amount outputs : UInt64}
    (h : Store.outputCount s amount = .ok outputs) (r : SpentReport) (spent : UInt64) :
    r.addAmount s amount spent = r.add (row amount outputs spent) := by
  rw [addAmount, h]
  rfl

/-- The rows of amounts, up to the first one whose outputs a store fails to count. -/
def counted {σ : Type} [Store σ] (s : σ) : (known : List (UInt64 × UInt64)) → List AmountUsage
  | [] => []
  | (amount, spent) :: known =>
    match Store.outputCount s amount with
    | .ok outputs => row amount outputs spent :: counted s known
    | .error _ => []

/-- Adds amounts to a report, one after the other. -/
def addKnown {σ : Type} [Store σ] (s : σ) (r : SpentReport) (known : List (UInt64 × UInt64)) :
    Except (Halt StoreError) SpentReport :=
  known.foldlM (fun r (amount, spent) => r.addAmount s amount spent) r

/-- The outputs of the first amount are counted before the others are looked at. -/
theorem addKnown_cons {σ : Type} [Store σ] (s : σ) (r : SpentReport) (amount spent : UInt64)
    (known : List (UInt64 × UInt64)) :
    addKnown s r ((amount, spent) :: known) = r.addAmount s amount spent >>= fun r => addKnown s r known := by
  rw [addKnown, List.foldlM_cons]
  rfl

/-- Adding amounts to a report ends with all rows, or with the error of the store, or else the rows that the store
counts do not fit. -/
theorem Sums.addKnown_cases {σ : Type} [Store σ] (s : σ) (h : r.Sums) (known : List (UInt64 × UInt64)) :
    (∃ r', addKnown s r known = .ok r' ∧ r'.Sums ∧ r'.amounts = r.amounts ++ counted s known) ∨
      (∃ e, addKnown s r known = .error (.failure e) ∧ (∃ entry ∈ known, Store.outputCount s entry.1 = .error e) ∧
        Fits (r.amounts ++ counted s known)) ∨
      (addKnown s r known = .error .overflow ∧ ¬Fits (r.amounts ++ counted s known)) := by
  induction known generalizing r with
  | nil => exact .inl ⟨r, rfl, h, (List.append_nil _).symm⟩
  | cons entry known ih =>
    obtain ⟨amount, spent⟩ := entry
    rw [addKnown_cons, counted]
    cases hcount : Store.outputCount s amount with
    | error e =>
      refine .inr (.inl ⟨e, ?_, ⟨_, List.mem_cons_self, hcount⟩, ?_⟩)
      · rw [addAmount, hcount]
        rfl
      · rw [List.append_nil]
        exact h.fits
    | ok outputs =>
      rw [addAmount_eq hcount, List.append_cons]
      obtain ⟨r', hr', hsums, hamounts⟩ | ⟨hhalts, hlarge⟩ := h.add_cases StoreError (row amount outputs spent)
      · rw [hr', ← hamounts]
        obtain hdone | ⟨e, hfails, ⟨entry, hentry, he⟩, hfits⟩ | hhalts := ih hsums
        · exact .inl hdone
        · exact .inr (.inl ⟨e, hfails, ⟨entry, List.mem_cons_of_mem _ hentry, he⟩, hfits⟩)
        · exact .inr (.inr hhalts)
      · refine .inr (.inr ⟨by rw [hhalts]; rfl, fun hfits => ?_⟩)
        obtain ⟨houtputs, hspent⟩ := hfits.front
        rw [columnSum_concat, ← h.outputs] at houtputs
        rw [columnSum_concat, ← h.spent] at hspent
        exact hlarge.elim houtputs.not_ge hspent.not_ge

/-- Reading a listing halts exactly if the offset lines of an amount stand together for more outputs than a counter
tells. Comparing halts exactly if the rows that the store counts do not fit. Otherwise the first gives a result, and
the second gives a result or an error with which the store fails to count the outputs of an amount. -/
theorem halts_iff {σ : Type} [Store σ] (s : σ) (ε : Type) (text : String) (counts : SpentCounts) :
    (((SpentCounts.parse text : Except (Halt ε) SpentCounts) = .error .overflow ↔
          ∃ amount, UInt64.size ≤ SpentCounts.outputsListed text amount) ∧
        ((SpentCounts.parse text : Except (Halt ε) SpentCounts) = .error .overflow ∨
          ∃ counts, (SpentCounts.parse text : Except (Halt ε) SpentCounts) = .ok counts)) ∧
      (analyze s counts = .error .overflow ↔ ¬Fits (counted s counts.toList)) ∧
        (analyze s counts = .error .overflow ∨ (∃ r, analyze s counts = .ok r) ∨
          ∃ amount ∈ counts, ∃ e, Store.outputCount s amount = .error e ∧
            analyze s counts = .error (.failure e)) := by
  refine ⟨?_, ?_⟩
  · obtain ⟨counts, hcounts, -, hfits⟩ | ⟨hhalts, hlarge⟩ := SpentCounts.parse_cases ε text
    · rw [hcounts]
      refine ⟨⟨fun h => (by cases h), fun ⟨amount, hlarge⟩ => absurd hlarge (hfits amount).not_ge⟩, .inr ⟨_, rfl⟩⟩
    · exact ⟨iff_of_true hhalts hlarge, .inl hhalts⟩
  · have hcases := sums_empty.addKnown_cases s counts.toList
    rw [List.nil_append] at hcases
    rw [analyze, ← addKnown]
    obtain ⟨r, hr, hsums, hamounts⟩ | ⟨e, hfails, ⟨entry, hentry, he⟩, hfits⟩ | ⟨hhalts, hlarge⟩ := hcases
    · rw [hr, ← hamounts]
      exact ⟨iff_of_false nofun (not_not.mpr hsums.fits), .inr (.inl ⟨r, rfl⟩)⟩
    · rw [hfails]
      refine ⟨iff_of_false nofun (not_not.mpr hfits), .inr (.inr ⟨entry.1, ?_, e, he, rfl⟩)⟩
      rw [← Std.ExtTreeMap.mem_keys, ← Std.ExtTreeMap.map_fst_toList_eq_keys]
      exact List.mem_map_of_mem hentry
    · exact ⟨iff_of_true hhalts hlarge, .inl hhalts⟩

/-- The lines of an amount protect themselves, but not each other. Nor do the amounts of a listing. -/
theorem not_protected_repeated :
    (SpentCounts.parse "@5\n0*18446744073709551615\n0\n" : Except (Halt StoreError) SpentCounts) =
        .error .overflow ∧
      ((SpentCounts.parse "@5\n0*18446744073709551615\n@6\n0\n" : Except (Halt StoreError) SpentCounts) >>=
        analyze ({} : Memory)) = .error .overflow := by
  decide +kernel

end SpentReport

end RingDepth
