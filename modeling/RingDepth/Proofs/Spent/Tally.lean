import Mathlib.Algebra.GroupWithZero.Nat
import Mathlib.Data.List.Induction
import RingDepth.Proofs.Outcome
import RingDepth.Spent.Listing

/-!
# Adding up numbers by amount

Numbers of outputs are added up entry by entry, each entry with its amount. The sum of an amount comes out exactly,
and an amount is listed if there is an entry of it, even if it adds nothing. The only thing that can stop the adding
is a sum that no counter holds, and then it does stop, whatever the order of the entries is.
-/

namespace RingDepth

namespace SpentCounts

variable {ε : Type} {counts counts' : SpentCounts} {entries : List (UInt64 × UInt64)} {amount count : UInt64}

/-- Adds entries to the numbers of their amounts, one after the other. -/
def addAll (counts : SpentCounts) (entries : List (UInt64 × UInt64)) : Except (Halt ε) SpentCounts :=
  entries.foldlM (fun counts entry => counts.add entry.1 entry.2) counts

/-- Entries behind others are added after them. -/
theorem addAll_append (counts : SpentCounts) (entries more : List (UInt64 × UInt64)) :
    (counts.addAll (entries ++ more) : Except (Halt ε) SpentCounts) =
      counts.addAll entries >>= fun counts => counts.addAll more :=
  List.foldlM_append

/-- A single entry is added as such. -/
theorem addAll_singleton (counts : SpentCounts) (amount count : UInt64) :
    (counts.addAll [(amount, count)] : Except (Halt ε) SpentCounts) = counts.add amount count := by
  rw [addAll, List.foldlM_cons]
  exact bind_pure _

/-- The last entry is added to the sums of those before it. -/
theorem addAll_concat (counts : SpentCounts) (entries : List (UInt64 × UInt64)) (amount count : UInt64) :
    (counts.addAll (entries ++ [(amount, count)]) : Except (Halt ε) SpentCounts) =
      counts.addAll entries >>= fun sums => sums.add amount count := by
  rw [addAll_append]
  exact congrArg _ (funext fun sums => addAll_singleton sums amount count)

/-- Whatever adds entries for each element of a list adds all of them. -/
theorem foldlM_eq_addAll {α : Type} {f : SpentCounts → α → Except (Halt ε) SpentCounts}
    {made : α → List (UInt64 × UInt64)} (h : ∀ counts x, f counts x = addAll counts (made x))
    (counts : SpentCounts) (xs : List α) : xs.foldlM f counts = addAll counts (xs.flatMap made) := by
  induction xs generalizing counts with
  | nil => rfl
  | cons x xs ih =>
    rw [List.foldlM_cons, List.flatMap_cons, addAll_append, h]
    exact congrArg _ (funext ih)

/-- The sum of what entries say of an amount. -/
def total (entries : List (UInt64 × UInt64)) (amount : UInt64) : ℕ :=
  ((entries.filter fun entry => entry.1 = amount).map fun entry => entry.2.toNat).sum

/-- Entries behind others add to their sum. -/
theorem total_append (entries more : List (UInt64 × UInt64)) (amount : UInt64) :
    total (entries ++ more) amount = total entries amount + total more amount := by
  rw [total, List.filter_append, List.map_append, List.sum_append, ← total, ← total]

/-- A single entry adds to its own amount only. -/
theorem total_singleton (entry : UInt64 × UInt64) (amount : UInt64) :
    total [entry] amount = if entry.1 = amount then entry.2.toNat else 0 := by
  rw [total, List.filter_singleton]
  split_ifs <;> simp_all

/-- Entries of several lists add to their sums. -/
theorem total_flatMap {α : Type} (made : α → List (UInt64 × UInt64)) (xs : List α) (amount : UInt64) :
    total (xs.flatMap made) amount = (xs.map fun x => total (made x) amount).sum := by
  induction xs with
  | nil => rfl
  | cons x xs ih => rw [List.flatMap_cons, total_append, ih, List.map_cons, List.sum_cons]

/-- There is an entry of an amount whose sum is not zero. -/
theorem exists_of_total_pos (h : 0 < total entries amount) : ∃ count, (amount, count) ∈ entries := by
  by_contra hnone
  have hfilter : (entries.filter fun entry => entry.1 = amount) = [] := by
    rw [List.filter_eq_nil_iff]
    intro entry hentry hsame
    rw [decide_eq_true_iff] at hsame
    exact hnone ⟨entry.2, hsame ▸ hentry⟩
  rw [total, hfilter] at h
  exact Nat.lt_irrefl 0 h

/-- Whether counts are the sums of entries. -/
structure Tallies (counts : SpentCounts) (entries : List (UInt64 × UInt64)) : Prop where
  mem_iff : ∀ amount, amount ∈ counts ↔ ∃ count, (amount, count) ∈ entries
  toNat_getD : ∀ amount, (counts.getD amount 0).toNat = total entries amount

/-- Without entries nothing is listed. -/
theorem tallies_nil : Tallies ∅ [] where
  mem_iff := by simp
  toNat_getD amount := by
    rw [Std.ExtTreeMap.getD_empty]
    rfl

/-- What is added to an amount adds to the sum, which a counter has to hold. -/
theorem add_eq_ok_iff :
    (counts.add amount count : Except (Halt ε) SpentCounts) = .ok counts' ↔
      ∃ sum : UInt64, sum.toNat = (counts.getD amount 0).toNat + count.toNat ∧
        counts' = counts.insert amount sum := by
  rw [add, bind_eq_ok_iff]
  refine exists_congr fun sum => and_congr addCounter_eq_ok_iff ?_
  rw [pure, Applicative.toPure, eq_comm]
  exact ⟨fun h => (Except.ok.inj h), congrArg _⟩

/-- A sum that no counter holds stops the adding. -/
theorem add_eq_overflow (h : UInt64.size ≤ (counts.getD amount 0).toNat + count.toNat) :
    (counts.add amount count : Except (Halt ε) SpentCounts) = .error .overflow := by
  rw [add, addCounter_eq_overflow h]
  rfl

/-- An entry that is added to sums makes them those with the entry. -/
theorem Tallies.add (h : counts.Tallies entries)
    (hadd : (counts.add amount count : Except (Halt ε) SpentCounts) = .ok counts') :
    counts'.Tallies (entries ++ [(amount, count)]) := by
  obtain ⟨sum, hsum, rfl⟩ := add_eq_ok_iff.mp hadd
  refine ⟨fun other => ?_, fun other => ?_⟩
  · rw [Std.ExtTreeMap.mem_insert, h.mem_iff, Std.LawfulEqCmp.compare_eq_iff_eq]
    simp only [List.mem_append, List.mem_singleton, Prod.mk.injEq, exists_or, exists_and_left, exists_eq, and_true]
    rw [or_comm, eq_comm]
  · rw [Std.ExtTreeMap.getD_insert, total_append, total_singleton, ← h.toNat_getD]
    simp only [Std.LawfulEqCmp.compare_eq_iff_eq]
    split_ifs with hsame
    · rw [hsum, hsame]
    · rfl

/-- Entries are added up exactly if a counter holds the sum of each amount. Otherwise the adding halts. -/
theorem addAll_empty (ε : Type) (entries : List (UInt64 × UInt64)) :
    (∃ counts : SpentCounts, (addAll ∅ entries : Except (Halt ε) SpentCounts) = .ok counts ∧
        counts.Tallies entries ∧ ∀ amount, total entries amount < UInt64.size) ∨
      ((addAll ∅ entries : Except (Halt ε) SpentCounts) = .error .overflow ∧
        ∃ amount, UInt64.size ≤ total entries amount) := by
  induction entries using List.reverseRecOn with
  | nil => exact .inl ⟨∅, rfl, tallies_nil, fun _ => Nat.two_pow_pos 64⟩
  | append_singleton entries entry ih =>
    obtain ⟨amount, count⟩ := entry
    have hlast : total (entries ++ [(amount, count)]) amount = total entries amount + count.toNat := by
      rw [total_append, total_singleton, if_pos rfl]
    rw [addAll_concat]
    obtain ⟨counts, hcounts, htallies, hfits⟩ | ⟨hhalts, other, hlarge⟩ := ih
    · rw [hcounts]
      -- The entry changes the sum of its own amount only, so the others still fit.
      by_cases hsum : total entries amount + count.toNat < UInt64.size
      · obtain ⟨sum, hsum'⟩ : ∃ sum : UInt64, sum.toNat = (counts.getD amount 0).toNat + count.toNat :=
          ⟨_, (UInt64.toNat_ofNat_of_lt' (htallies.toNat_getD amount ▸ hsum))⟩
        have hok : (counts.add amount count : Except (Halt ε) SpentCounts) = .ok (counts.insert amount sum) :=
          add_eq_ok_iff.mpr ⟨sum, hsum', rfl⟩
        refine .inl ⟨_, hok, htallies.add hok, fun other => ?_⟩
        by_cases hsame : amount = other
        · rw [← hsame, hlast]
          exact hsum
        · rw [total_append, total_singleton, if_neg hsame]
          exact hfits other
      · rw [Nat.not_lt] at hsum
        exact .inr ⟨add_eq_overflow (htallies.toNat_getD amount ▸ hsum), amount, hlast ▸ hsum⟩
    · refine .inr ⟨by rw [hhalts]; rfl, other, ?_⟩
      rw [total_append]
      omega

end SpentCounts

end RingDepth
