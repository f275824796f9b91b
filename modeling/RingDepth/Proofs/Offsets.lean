import Mathlib.Algebra.GroupWithZero.Nat
import RingDepth.Offsets
import RingDepth.Proofs.Outcome

/-!
# Offsets and indices

The indices that offsets stand for are the running sums of the offsets. Reading offsets adds them up, and
each addition is checked; writing indices subtracts each from the one after it, and these subtractions are not
checked, for the indices increase. Both loops walk along the same pairs of lists, so each of them undoes the
other, up to the greatest index there is.
-/

namespace RingDepth.Offsets

variable {offsets indices steps : List UInt64} {previous : UInt64}

/-- Steps lead from an index to the indices after it: each is above the one before it, by the step between
them. -/
inductive Leads : UInt64 → List UInt64 → List UInt64 → Prop
  | nil (previous : UInt64) : Leads previous [] []
  | cons {previous step index : UInt64} {steps indices : List UInt64} (hlt : previous < index)
    (hsum : index.toNat = previous.toNat + step.toNat) (rest : Leads index steps indices) :
    Leads previous (step :: steps) (index :: indices)

/-- A step that is added leads to an index exactly when it is not zero and the sum is the index. -/
theorem added_iff {step index : UInt64} :
    step ≠ 0 ∧ addChecked? previous step = some index ↔
      previous < index ∧ index.toNat = previous.toNat + step.toNat := by
  rw [addChecked?_eq_some_iff, UInt64.lt_iff_toNat_lt, Ne, ← UInt64.toNat_inj, UInt64.toNat_zero]
  omega

/-- A difference is the step that leads to the greater index. -/
theorem subtracted_iff {step index : UInt64} (hlt : previous < index) :
    index - previous = step ↔ index.toNat = previous.toNat + step.toNat := by
  have hle : previous ≤ index := UInt64.le_of_lt hlt
  have hnat : previous.toNat < index.toNat := UInt64.lt_iff_toNat_lt.mp hlt
  rw [← UInt64.toNat_inj, UInt64.toNat_sub_of_le _ _ hle]
  omega

/-- A conversion that gives a first number and those of the rest gives a list exactly when the list begins with
this number and the rest gives its tail. -/
theorem map_cons_eq_ok_iff {rest : Except OffsetsError (List UInt64)} {first : UInt64} {found : List UInt64} :
    rest.map (first :: ·) = .ok found ↔ ∃ others, found = first :: others ∧ rest = .ok others := by
  rw [map_eq_ok_iff]
  exact exists_congr fun others => and_comm.trans (and_congr_left' eq_comm)

/-- Reading offsets finds the indices that they lead to. -/
theorem indicesAfter_eq_ok_iff {position : ℕ} :
    indicesAfter previous position steps = .ok indices ↔ Leads previous steps indices := by
  induction steps generalizing previous position indices with
  | nil =>
    refine ⟨fun h => ?_, fun h => ?_⟩
    · cases h
      exact .nil _
    · cases h
      rfl
  | cons step rest ih =>
    rw [indicesAfter]
    refine ⟨fun h => ?_, fun h => ?_⟩
    · split_ifs at h with hzero
      split at h
      · cases h
      · rename_i index hadded
        obtain ⟨others, rfl, hothers⟩ := map_cons_eq_ok_iff.mp h
        obtain ⟨hlt, hsum⟩ := added_iff.mp ⟨hzero, hadded⟩
        exact .cons hlt hsum (ih.mp hothers)
    · cases h with
      | cons hlt hsum hrest =>
        obtain ⟨hzero, hadded⟩ := added_iff.mpr ⟨hlt, hsum⟩
        rw [if_neg hzero, hadded]
        exact map_cons_eq_ok_iff.mpr ⟨_, rfl, ih.mpr hrest⟩

/-- Writing indices finds the steps that lead to them. -/
theorem stepsAfter_eq_ok_iff : stepsAfter previous indices = .ok steps ↔ Leads previous steps indices := by
  induction indices generalizing previous steps with
  | nil =>
    refine ⟨fun h => ?_, fun h => ?_⟩
    · cases h
      exact .nil _
    · cases h
      rfl
  | cons index rest ih =>
    rw [stepsAfter]
    refine ⟨fun h => ?_, fun h => ?_⟩
    · split_ifs at h with hlt
      obtain ⟨others, rfl, hothers⟩ := map_cons_eq_ok_iff.mp h
      exact .cons hlt ((subtracted_iff hlt).mp rfl) (ih.mp hothers)
    · cases h with
      | cons hlt hsum hrest =>
        rw [if_pos hlt]
        exact map_cons_eq_ok_iff.mpr ⟨_, by rw [(subtracted_iff hlt).mpr hsum], ih.mpr hrest⟩

/-- Steps that are not zero, and whose sum from an index on is one, lead somewhere, and no others do. -/
theorem exists_leads_iff_steps :
    (∃ indices, Leads previous steps indices) ↔
      (∀ step ∈ steps, step ≠ 0) ∧ previous.toNat + (steps.map UInt64.toNat).sum < UInt64.size := by
  induction steps generalizing previous with
  | nil =>
    refine iff_of_true ⟨[], .nil _⟩ ⟨by simp, ?_⟩
    simpa using previous.toNat_lt
  | cons step rest ih =>
    rw [List.forall_mem_cons, List.map_cons, List.sum_cons]
    refine ⟨fun h => ?_, fun h => ?_⟩
    · obtain ⟨indices, hleads⟩ := h
      cases hleads with
      | cons hlt hsum hrest =>
        obtain ⟨hnonzero, hroom⟩ := ih.mp ⟨_, hrest⟩
        exact ⟨⟨(added_iff.mpr ⟨hlt, hsum⟩).1, hnonzero⟩, by omega⟩
    · obtain ⟨⟨hzero, hnonzero⟩, hroom⟩ := h
      obtain ⟨index, hindex⟩ : ∃ index : UInt64, index.toNat = previous.toNat + step.toNat :=
        ⟨UInt64.ofNat (previous.toNat + step.toNat), UInt64.toNat_ofNat_of_lt' (by omega)⟩
      have hrest : index.toNat + (rest.map UInt64.toNat).sum < UInt64.size := by omega
      obtain ⟨indices, hleads⟩ := ih.mpr ⟨hnonzero, hrest⟩
      obtain ⟨hlt, hsum⟩ := added_iff.mp ⟨hzero, addChecked?_eq_some_iff.mpr hindex⟩
      exact ⟨_, .cons hlt hsum hleads⟩

/-- There are steps to indices that increase, and to no others. -/
theorem exists_leads_iff_indices :
    (∃ steps, Leads previous steps indices) ↔ (previous :: indices).Pairwise (· < ·) := by
  induction indices generalizing previous with
  | nil => exact iff_of_true ⟨[], .nil _⟩ (List.pairwise_singleton _ _)
  | cons index rest ih =>
    refine ⟨fun h => ?_, fun h => ?_⟩
    · obtain ⟨steps, hleads⟩ := h
      cases hleads with
      | cons hlt hsum hrest =>
        have hpairs := ih.mp ⟨_, hrest⟩
        refine List.pairwise_cons.mpr ⟨fun other hother => ?_, hpairs⟩
        obtain rfl | hother := List.mem_cons.mp hother
        · exact hlt
        · exact UInt64.lt_trans hlt (List.rel_of_pairwise_cons hpairs hother)
    · obtain ⟨hbelow, hpairs⟩ := List.pairwise_cons.mp h
      have hlt : previous < index := hbelow index List.mem_cons_self
      obtain ⟨steps, hrest⟩ := ih.mpr hpairs
      exact ⟨_, .cons hlt ((subtracted_iff hlt).mp rfl) hrest⟩

/-- Each of the indices that steps lead to is the sum of the steps up to its own, from where they began. -/
theorem leads_iff :
    Leads previous steps indices ↔ (previous :: indices).Pairwise (· < ·) ∧ indices.length = steps.length ∧
      ∀ (k : ℕ) index, indices[k]? = some index →
        index.toNat = previous.toNat + ((steps.take (k + 1)).map UInt64.toNat).sum := by
  induction steps generalizing previous indices with
  | nil =>
    refine ⟨fun h => ?_, fun h => ?_⟩
    · cases h
      exact ⟨List.pairwise_singleton _ _, rfl, by simp⟩
    · obtain rfl : indices = [] := List.length_eq_zero_iff.mp h.2.1
      exact .nil _
  | cons step rest ih =>
    refine ⟨fun h => ⟨exists_leads_iff_indices.mp ⟨_, h⟩, ?_⟩, fun h => ?_⟩
    · cases h with
      | cons hlt hsum hrest =>
        obtain ⟨-, hlength, hsums⟩ := ih.mp hrest
        refine ⟨by rw [List.length_cons, List.length_cons, hlength], fun k found hfound => ?_⟩
        cases k with
        | zero =>
          cases hfound
          simpa using hsum
        | succ k =>
          rw [hsums k found hfound, hsum, List.take_succ_cons, List.map_cons, List.sum_cons, Nat.add_assoc]
    · obtain ⟨hpairs, hlength, hsums⟩ := h
      obtain ⟨index, others, rfl⟩ := List.exists_of_length_succ _ hlength
      have hsum : index.toNat = previous.toNat + step.toNat := by simpa using hsums 0 index rfl
      obtain ⟨hbelow, hpairs⟩ := List.pairwise_cons.mp hpairs
      refine .cons (hbelow index List.mem_cons_self) hsum (ih.mpr ⟨hpairs, by simpa using hlength, ?_⟩)
      intro k found hfound
      rw [hsums (k + 1) found hfound, hsum, List.take_succ_cons, List.map_cons, List.sum_cons, Nat.add_assoc]

/-- Whether offsets stand for indices: each index is the sum of the offsets up to its own, and they increase. -/
structure StandFor (offsets indices : List UInt64) : Prop where
  increasing : indices.Pairwise (· < ·)
  length : indices.length = offsets.length
  sum : ∀ (k : ℕ) index, indices[k]? = some index →
    index.toNat = ((offsets.take (k + 1)).map UInt64.toNat).sum

/-- Offsets stand for indices exactly when both begin with the same number, and the other offsets lead from there to
the other indices. -/
theorem standFor_cons_iff {first index : UInt64} :
    StandFor (first :: steps) (index :: indices) ↔ first = index ∧ Leads index steps indices := by
  refine ⟨fun h => ?_, fun h => ?_⟩
  · have hfirst : index.toNat = first.toNat := by simpa using h.sum 0 index rfl
    refine ⟨UInt64.toNat_inj.mp hfirst.symm, leads_iff.mpr ⟨h.increasing, by simpa using h.length, ?_⟩⟩
    intro k found hfound
    rw [h.sum (k + 1) found hfound, hfirst, List.take_succ_cons, List.map_cons, List.sum_cons]
  · obtain ⟨rfl, hleads⟩ := h
    obtain ⟨hpairs, hlength, hsums⟩ := leads_iff.mp hleads
    refine ⟨hpairs, by rw [List.length_cons, List.length_cons, hlength], fun k found hfound => ?_⟩
    cases k with
    | zero =>
      cases hfound
      simp
    | succ k => rw [hsums k found hfound, List.take_succ_cons, List.map_cons, List.sum_cons]

/-- No offsets stand for no indices, and for no others. -/
theorem standFor_nil_iff : StandFor [] indices ↔ indices = [] := by
  refine ⟨fun h => List.length_eq_zero_iff.mp h.length, fun h => ?_⟩
  subst h
  exact ⟨.nil, rfl, by simp⟩

/-- Reading offsets finds the indices that they stand for. -/
theorem toAbsolute_eq_ok_iff : toAbsolute offsets = .ok indices ↔ StandFor offsets indices := by
  cases offsets with
  | nil =>
    rw [standFor_nil_iff, toAbsolute, Except.ok.injEq]
    exact eq_comm
  | cons first rest =>
    rw [toAbsolute, map_cons_eq_ok_iff]
    refine ⟨fun h => ?_, fun h => ?_⟩
    · obtain ⟨others, rfl, hothers⟩ := h
      exact standFor_cons_iff.mpr ⟨rfl, indicesAfter_eq_ok_iff.mp hothers⟩
    · obtain ⟨index, others, rfl⟩ := List.exists_of_length_succ _ h.length
      obtain ⟨rfl, hleads⟩ := standFor_cons_iff.mp h
      exact ⟨others, rfl, indicesAfter_eq_ok_iff.mpr hleads⟩

/-- Writing indices finds the offsets that stand for them. -/
theorem ofAbsolute_eq_ok_iff : ofAbsolute indices = .ok offsets ↔ StandFor offsets indices := by
  cases indices with
  | nil =>
    rw [ofAbsolute, Except.ok.injEq]
    refine ⟨fun h => h ▸ standFor_nil_iff.mpr rfl, fun h => (List.length_eq_zero_iff.mp h.length.symm).symm⟩
  | cons index rest =>
    rw [ofAbsolute, map_cons_eq_ok_iff]
    refine ⟨fun h => ?_, fun h => ?_⟩
    · obtain ⟨others, rfl, hothers⟩ := h
      exact standFor_cons_iff.mpr ⟨rfl, stepsAfter_eq_ok_iff.mp hothers⟩
    · obtain ⟨first, others, rfl⟩ := List.exists_of_length_succ _ h.length.symm
      obtain ⟨rfl, hleads⟩ := standFor_cons_iff.mp h
      exact ⟨others, rfl, stepsAfter_eq_ok_iff.mpr hleads⟩

/-- Offsets stand for indices if none but the first is zero and their total is an index, and no others do. -/
theorem exists_standFor_iff_offsets :
    (∃ indices, StandFor offsets indices) ↔
      (∀ step ∈ offsets.tail, step ≠ 0) ∧ (offsets.map UInt64.toNat).sum < UInt64.size := by
  cases offsets with
  | nil => exact iff_of_true ⟨[], standFor_nil_iff.mpr rfl⟩ ⟨by simp, by decide⟩
  | cons first rest =>
    rw [List.tail_cons, List.map_cons, List.sum_cons, ← exists_leads_iff_steps]
    refine ⟨fun h => ?_, fun h => ?_⟩
    · obtain ⟨indices, hstand⟩ := h
      obtain ⟨index, others, rfl⟩ := List.exists_of_length_succ _ hstand.length
      obtain ⟨rfl, hleads⟩ := standFor_cons_iff.mp hstand
      exact ⟨others, hleads⟩
    · obtain ⟨others, hleads⟩ := h
      exact ⟨first :: others, standFor_cons_iff.mpr ⟨rfl, hleads⟩⟩

/-- There are offsets that stand for indices if these increase, and only then. -/
theorem exists_standFor_iff_indices :
    (∃ offsets, StandFor offsets indices) ↔ indices.Pairwise (· < ·) := by
  refine ⟨fun h => h.elim fun _ hstand => hstand.increasing, fun h => ?_⟩
  cases indices with
  | nil => exact ⟨[], standFor_nil_iff.mpr rfl⟩
  | cons index rest =>
    obtain ⟨steps, hleads⟩ := exists_leads_iff_indices.mpr h
    exact ⟨index :: steps, standFor_cons_iff.mpr ⟨rfl, hleads⟩⟩

/-- Offsets read exactly when none but the first is zero and their total is below `2 ^ 64`, and indices can be written
exactly when they increase strictly. Each conversion finds what the other one takes back, and what they relate are the
offsets and their sums. -/
theorem absolute_iff_relative (offsets indices : List UInt64) :
    ((∃ found, toAbsolute offsets = .ok found) ↔
        (∀ step ∈ offsets.tail, step ≠ 0) ∧ (offsets.map UInt64.toNat).sum < 2 ^ 64) ∧
      ((∃ found, ofAbsolute indices = .ok found) ↔ indices.Pairwise (· < ·)) ∧
      (toAbsolute offsets = .ok indices ↔ ofAbsolute indices = .ok offsets) ∧
      (toAbsolute offsets = .ok indices ↔ StandFor offsets indices) := by
  refine ⟨?_, ?_, toAbsolute_eq_ok_iff.trans ofAbsolute_eq_ok_iff.symm, toAbsolute_eq_ok_iff⟩
  · simp only [toAbsolute_eq_ok_iff]
    exact exists_standFor_iff_offsets
  · simp only [ofAbsolute_eq_ok_iff]
    exact exists_standFor_iff_indices

/-- The greatest index is reached by one step from the one before it, and no step goes beyond it. -/
example : toAbsolute [18446744073709551614, 1] = .ok [18446744073709551614, 18446744073709551615] ∧
    toAbsolute [18446744073709551614, 1, 1] = .error .overflow := by
  decide

end RingDepth.Offsets
