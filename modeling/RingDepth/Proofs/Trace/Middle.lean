import Mathlib.Algebra.Order.Group.Nat
import Mathlib.Data.List.Sort
import RingDepth.Trace.Report

/-!
# The middle of some depths

A depth is in the middle of some depths if at least half of them are not above it, and at least half are not below it.
This says nothing of an order in which the depths stand. But if they are put in order, then the ones in the middle of
the list are exactly these: one if the number of depths is odd, and two next to each other if it is even, which may be
the same. So the median is formed from them, whatever the order was.
-/

namespace RingDepth

/-- Whether a depth is in the middle of some depths: it is one of them, at least half of them are not above
it, and at least half are not below it. -/
structure InMiddle (depths : List ℕ) (d : ℕ) : Prop where
  mem : d ∈ depths
  notAbove : depths.length ≤ 2 * depths.countP (· ≤ d)
  notBelow : depths.length ≤ 2 * depths.countP (d ≤ ·)

/-- The order of the depths does not matter. -/
theorem InMiddle.perm {depths others : List ℕ} {d : ℕ} (h : InMiddle depths d) (hperm : others.Perm depths) :
    InMiddle others d where
  mem := hperm.mem_iff.mpr h.mem
  notAbove := by
    rw [hperm.length_eq, hperm.countP_eq]
    exact h.notAbove
  notBelow := by
    rw [hperm.length_eq, hperm.countP_eq]
    exact h.notBelow

section Ordered

variable {l : List ℕ} (h : l.Pairwise (· ≤ ·)) {i j d : ℕ}

include h

/-- In an ordered list no depth is above a later one. -/
theorem getElem_le_getElem (hij : i ≤ j) (hj : j < l.length) : l[i] ≤ l[j] := by
  obtain rfl | hlt := Nat.eq_or_lt_of_le hij
  · exact Nat.le_refl _
  · exact List.pairwise_iff_getElem.mp h i j (by omega) hj hlt

/-- The depths up to a place are not above the one at the place. -/
theorem lt_countP_le_getElem (hi : i < l.length) : i < l.countP (· ≤ l[i]) := by
  have hfront : (l.take (i + 1)).countP (· ≤ l[i]) = (l.take (i + 1)).length := by
    refine List.countP_eq_length.mpr fun a ha => ?_
    obtain ⟨k, hk, rfl⟩ := List.mem_take_iff_getElem.mp ha
    exact decide_eq_true (getElem_le_getElem h (by omega) hi)
  have hle := (List.take_sublist (i + 1) l).countP_le (p := (· ≤ l[i]))
  rw [hfront, List.length_take] at hle
  omega

/-- The depths from a place on are not below the one at the place. -/
theorem length_le_countP_getElem_le (hi : i < l.length) : l.length ≤ i + l.countP (l[i] ≤ ·) := by
  have hback : (l.drop i).countP (l[i] ≤ ·) = (l.drop i).length := by
    refine List.countP_eq_length.mpr fun a ha => ?_
    obtain ⟨k, hk, rfl⟩ := List.mem_drop_iff_getElem.mp ha
    exact decide_eq_true (getElem_le_getElem h (Nat.le_add_right i k) _)
  have hle := (List.drop_sublist i l).countP_le (p := (l[i] ≤ ·))
  rw [hback, List.length_drop] at hle
  omega

/-- Only depths in front of a place are not above a depth that is below the one at the place. -/
theorem countP_le_of_lt_getElem (hi : i < l.length) (hd : d < l[i]) : l.countP (· ≤ d) ≤ i := by
  have hback : (l.drop i).countP (· ≤ d) = 0 := by
    refine List.countP_eq_zero.mpr fun a ha hle => ?_
    obtain ⟨k, hk, rfl⟩ := List.mem_drop_iff_getElem.mp ha
    have hplace := getElem_le_getElem h (Nat.le_add_right i k) (by omega)
    exact absurd (of_decide_eq_true hle) (by omega)
  have hfront := List.countP_le_length (p := (· ≤ d)) (l := l.take i)
  rw [← List.take_append_drop i l, List.countP_append, hback]
  rw [List.length_take] at hfront
  omega

/-- Only depths behind a place are not below a depth that is above the one at the place. -/
theorem countP_ge_of_getElem_lt (hi : i < l.length) (hd : l[i] < d) : i + l.countP (d ≤ ·) < l.length := by
  have hfront : (l.take (i + 1)).countP (d ≤ ·) = 0 := by
    refine List.countP_eq_zero.mpr fun a ha hle => ?_
    obtain ⟨k, hk, rfl⟩ := List.mem_take_iff_getElem.mp ha
    have hplace := getElem_le_getElem h (show k ≤ i by omega) hi
    exact absurd (of_decide_eq_true hle) (by omega)
  have hback := List.countP_le_length (p := (d ≤ ·)) (l := l.drop (i + 1))
  rw [List.length_drop] at hback
  have hsplit : l.countP (d ≤ ·) = (l.drop (i + 1)).countP (d ≤ ·) := by
    conv_lhs => rw [← List.take_append_drop (i + 1) l, List.countP_append, hfront, Nat.zero_add]
  omega

/-- The depths in the middle are those in the middle of the ordered list. -/
theorem inMiddle_iff (hsome : 0 < l.length) :
    InMiddle l d ↔ d = l[(l.length - 1) / 2] ∨ d = l[l.length / 2] := by
  constructor
  · intro hd
    have hlower : l[(l.length - 1) / 2] ≤ d := by
      by_contra hlt
      have hfew := countP_le_of_lt_getElem h (show (l.length - 1) / 2 < l.length by omega) (Nat.lt_of_not_le hlt)
      have := hd.notAbove
      omega
    have hupper : d ≤ l[l.length / 2] := by
      by_contra hlt
      have hfew := countP_ge_of_getElem_lt h (show l.length / 2 < l.length by omega) (Nat.lt_of_not_le hlt)
      have := hd.notBelow
      omega
    -- There is no place between the two.
    obtain ⟨k, hk, rfl⟩ := List.mem_iff_getElem.mp hd.mem
    obtain hfront | hback := Nat.lt_or_ge ((l.length - 1) / 2) k
    · exact .inr (Nat.le_antisymm hupper (getElem_le_getElem h (by omega) hk))
    · exact .inl (Nat.le_antisymm (getElem_le_getElem h hback (by omega)) hlower)
  · have hmiddle (i : ℕ) (hi : i < l.length) (hfront : l.length ≤ 2 * (i + 1)) (hback : 2 * i ≤ l.length) :
        InMiddle l l[i] := by
      have habove := lt_countP_le_getElem h hi
      have hbelow := length_le_countP_getElem_le h hi
      exact ⟨List.getElem_mem hi, by omega, by omega⟩
    rintro (rfl | rfl)
    · exact hmiddle _ (by omega) (by omega) (by omega)
    · exact hmiddle _ (by omega) (by omega) (by omega)

end Ordered

/-- Whether two depths are the least and the greatest of those in the middle of some depths. If the depths are
put in order, then they stand in the middle. -/
structure MiddlePair (depths : List ℕ) (lower upper : ℕ) : Prop where
  le : lower ≤ upper
  inMiddle_iff : ∀ d, InMiddle depths d ↔ d = lower ∨ d = upper
  ordered : ∀ l : List ℕ, l.Perm depths → l.Pairwise (· ≤ ·) →
    l[(depths.length - 1) / 2]? = some lower ∧ l[depths.length / 2]? = some upper

namespace MiddlePair

variable {depths others : List ℕ} {lower upper lower' upper' : ℕ}

/-- The order of the depths does not matter. -/
theorem perm (h : MiddlePair depths lower upper) (hperm : others.Perm depths) : MiddlePair others lower upper where
  le := h.le
  inMiddle_iff d := ⟨fun hd => (h.inMiddle_iff d).mp (hd.perm hperm.symm),
    fun hd => ((h.inMiddle_iff d).mpr hd).perm hperm⟩
  ordered l hl hordered := by
    rw [hperm.length_eq]
    exact h.ordered l (hl.trans hperm) hordered

/-- There is one such pair. -/
theorem unique (h : MiddlePair depths lower upper) (h' : MiddlePair depths lower' upper') :
    lower = lower' ∧ upper = upper' := by
  have hsame (d : ℕ) : d = lower ∨ d = upper ↔ d = lower' ∨ d = upper' :=
    (h.inMiddle_iff d).symm.trans (h'.inMiddle_iff d)
  have hlower := (hsame lower).mp (.inl rfl)
  have hupper := (hsame upper).mp (.inr rfl)
  have hlower' := (hsame lower').mpr (.inl rfl)
  have hupper' := (hsame upper').mpr (.inr rfl)
  have hle := h.le
  have hle' := h'.le
  omega

/-- If the number of depths is odd, then the two are the same. -/
theorem eq_of_odd (h : MiddlePair depths lower upper) (hodd : depths.length % 2 = 1) : lower = upper := by
  obtain ⟨hlower, hupper⟩ := h.ordered depths.mergeSort (List.mergeSort_perm _ _) (List.pairwise_mergeSort' _ _)
  have hplace : (depths.length - 1) / 2 = depths.length / 2 := by omega
  rw [hplace] at hlower
  exact Option.some.inj (hlower.symm.trans hupper)

/-- The median is formed from them. -/
theorem medianOf_eq (h : MiddlePair depths lower upper) :
    DepthSummary.medianOf depths =
      if depths.length % 2 = 1 then .ofNat upper else (.ofNat lower + .ofNat upper) / 2 := by
  have hperm := List.mergeSort_perm depths fun a b => decide (a ≤ b)
  obtain ⟨hlower, hupper⟩ := h.ordered depths.mergeSort hperm (List.pairwise_mergeSort' _ _)
  rw [DepthSummary.medianOf]
  simp only [List.getD_eq_getElem?_getD, hperm.length_eq, hupper, Option.getD_some]
  split
  · rfl
  · have hplace : depths.length / 2 - 1 = (depths.length - 1) / 2 := by omega
    rw [hplace, hlower, Option.getD_some]

end MiddlePair

/-- Depths have a least and a greatest one in the middle: those in the middle of the ordered list. -/
theorem exists_middlePair {depths : List ℕ} (hsome : depths ≠ []) : ∃ lower upper, MiddlePair depths lower upper := by
  have hperm := List.mergeSort_perm depths fun a b => decide (a ≤ b)
  have hordered : depths.mergeSort.Pairwise (· ≤ ·) := List.pairwise_mergeSort' _ _
  have hlength : 0 < depths.mergeSort.length := by
    rw [hperm.length_eq]
    exact List.length_pos_iff.mpr hsome
  refine ⟨depths.mergeSort[(depths.mergeSort.length - 1) / 2], depths.mergeSort[depths.mergeSort.length / 2],
    ?_, fun d => ?_, fun l hl hl' => ?_⟩
  · exact getElem_le_getElem hordered (by omega) (by omega)
  · rw [← inMiddle_iff hordered hlength]
    exact ⟨fun hd => hd.perm hperm, fun hd => hd.perm hperm.symm⟩
  · -- There is only one ordered list of the depths.
    rw [(hl.trans hperm.symm).eq_of_pairwise (fun _ _ _ _ => Nat.le_antisymm) hl' hordered, ← hperm.length_eq]
    exact ⟨List.getElem?_eq_getElem _, List.getElem?_eq_getElem _⟩

end RingDepth
