import Mathlib.Order.Bounds.Basic
import RingDepth.Proofs.Checkpoints.Loading

/-!
# Merging registries

Two registries can be merged if they pin no different hashes at one height. A search for such a height goes through
the checkpoints of one registry in ascending order and looks each up in the other one. What it finds is the least
height at which the two disagree, and to disagree is the same in both directions, so it does not matter which of the
two is searched. If they agree everywhere, then the checkpoints of either are added to the other one in any order, and
the result is the registry that pins what one of them pins.
-/

namespace RingDepth.Checkpoints

variable {a b c : Checkpoints} {height : UInt64} {hash : BlockHash} {pairs : List (UInt64 × BlockHash)}

/-! ### The checkpoints in ascending order -/

/-- The checkpoints of a registry are the pairs of a height and the hash that is pinned there. -/
theorem mem_toList : (height, hash) ∈ c.toList ↔ c.get? height = some hash :=
  Std.ExtTreeMap.mem_toList_iff_getElem?_eq_some

/-- They come with ascending heights. -/
theorem pairwise_heights (c : Checkpoints) : c.toList.Pairwise fun x y => x.1 < y.1 :=
  c.points.ordered_keys_toList.imp Std.compare_eq_lt.mp

/-- Where heights ascend, the first pair with a property has the least height of all pairs that have it. -/
theorem find?_fst_eq_some_iff {p : UInt64 × BlockHash → Bool} (h : pairs.Pairwise fun x y => x.1 < y.1) :
    (pairs.find? p).map Prod.fst = some height ↔
      IsLeast {height | ∃ hash, (height, hash) ∈ pairs ∧ p (height, hash)} height := by
  induction pairs with
  | nil =>
    simp [IsLeast]
  | cons pair pairs ih =>
    obtain ⟨hfirst, hrest⟩ := List.pairwise_cons.mp h
    by_cases hp : p pair
    · -- The first pair has the property, and all others have a greater height.
      have hleast : IsLeast {height | ∃ hash, (height, hash) ∈ pair :: pairs ∧ p (height, hash)} pair.1 := by
        refine ⟨⟨pair.2, List.mem_cons_self, hp⟩, ?_⟩
        rintro other ⟨hash, hmem, -⟩
        obtain rfl | hmem := List.mem_cons.mp hmem
        · exact UInt64.le_refl _
        · exact UInt64.le_of_lt (hfirst _ hmem)
      rw [List.find?_cons_of_pos hp, Option.map_some, Option.some.injEq]
      exact ⟨fun hsame => hsame ▸ hleast, fun h => UInt64.le_antisymm (hleast.2 h.1) (h.2 hleast.1)⟩
    · have hsame : {height | ∃ hash, (height, hash) ∈ pair :: pairs ∧ p (height, hash)} =
          {height | ∃ hash, (height, hash) ∈ pairs ∧ p (height, hash)} := by
        ext other
        refine exists_congr fun hash => and_congr_left fun hother => ?_
        rw [List.mem_cons, or_iff_right]
        rintro rfl
        exact hp hother
      rw [List.find?_cons_of_neg hp, ih hrest, hsame]

/-! ### Disagreement -/

/-- Whether two registries pin different hashes at a height. -/
def DisagreeAt (a b : Checkpoints) (height : UInt64) : Prop :=
  ∃ hash hash', a.get? height = some hash ∧ b.get? height = some hash' ∧ hash ≠ hash'

/-- To disagree is the same in both directions. -/
theorem disagreeAt_comm : a.DisagreeAt b height ↔ b.DisagreeAt a height := by
  constructor
  · rintro ⟨hash, hash', ha, hb, hne⟩
    exact ⟨hash', hash, hb, ha, hne.symm⟩
  · rintro ⟨hash, hash', hb, ha, hne⟩
    exact ⟨hash', hash, ha, hb, hne.symm⟩

/-- The search finds the least height at which the two registries disagree. -/
theorem conflict?_eq_some_iff : a.conflict? b = some height ↔ IsLeast {height | a.DisagreeAt b height} height := by
  have hdisagree : {height | a.DisagreeAt b height} =
      {height | ∃ hash, (height, hash) ∈ b.toList ∧ (a.get? height).any (· != hash)} := by
    ext height
    simp only [DisagreeAt, Set.mem_ofPred_eq, mem_toList, Option.any_eq_true, bne_iff_ne]
    constructor
    · rintro ⟨hash, hash', ha, hb, hne⟩
      exact ⟨hash', hb, hash, ha, hne⟩
    · rintro ⟨hash', hb, hash, ha, hne⟩
      exact ⟨hash, hash', ha, hb, hne⟩
  rw [hdisagree]
  exact find?_fst_eq_some_iff b.pairwise_heights

/-- It does not matter which of the two registries is searched. -/
theorem conflict?_comm (a b : Checkpoints) : a.conflict? b = b.conflict? a := by
  have hsame : {height | a.DisagreeAt b height} = {height | b.DisagreeAt a height} :=
    Set.ext fun _ => disagreeAt_comm
  apply Option.ext
  intro height
  rw [conflict?_eq_some_iff, conflict?_eq_some_iff, hsame]

/-- It finds nothing exactly if they agree everywhere. -/
theorem conflict?_eq_none_iff : a.conflict? b = none ↔ ∀ height, ¬a.DisagreeAt b height := by
  rw [conflict?, Option.map_eq_none_iff, List.find?_eq_none]
  constructor
  · rintro h height ⟨hash, hash', ha, hb, hne⟩
    exact h (height, hash') (mem_toList.mpr hb) (by simp [ha, hne])
  · intro h pair hpair hany
    obtain ⟨hash, ha, hne⟩ := (Option.any_eq_true _ _).mp hany
    exact h pair.1 ⟨hash, pair.2, ha, mem_toList.mp hpair, bne_iff_ne.mp hne⟩

/-! ### Merging -/

/-- Whether a registry pins what one of two others pins, and nothing else. -/
def Merges (a b c : Checkpoints) : Prop :=
  ∀ height hash, c.get? height = some hash ↔ a.get? height = some hash ∨ b.get? height = some hash

/-- To merge is the same in both directions. -/
theorem merges_comm : a.Merges b c ↔ b.Merges a c :=
  forall₂_congr fun _ _ => by rw [or_comm]

/-- The checkpoints of a registry want what it pins, in any order. -/
theorem wants_iff_of_perm (h : pairs.Perm b.toList) :
    a.Wants pairs height hash ↔ a.get? height = some hash ∨ b.get? height = some hash := by
  rw [Wants, h.mem_iff, mem_toList]

/-- To add them is to merge the two registries. -/
theorem addAll_eq_ok_iff_merges (h : pairs.Perm b.toList) : a.addAll pairs = .ok c ↔ a.Merges b c := by
  rw [addAll_eq_ok_iff]
  exact forall₂_congr fun _ _ => by rw [wants_iff_of_perm h]

/-- They can be added exactly if the two registries agree everywhere. -/
theorem exists_addAll_iff_agree (h : pairs.Perm b.toList) :
    (∃ c, a.addAll pairs = .ok c) ↔ ∀ height, ¬a.DisagreeAt b height := by
  rw [exists_addAll_eq_ok_iff]
  simp only [wants_iff_of_perm h]
  constructor
  · rintro hsame height ⟨hash, hash', ha, hb, hne⟩
    exact hne (hsame height hash hash' (.inl ha) (.inr hb))
  · rintro hagree height hash hash' (ha | hb) (ha' | hb')
    · exact Option.some.inj (ha.symm.trans ha')
    · exact by_contra fun hne => hagree height ⟨hash, hash', ha, hb', hne⟩
    · exact by_contra fun hne => hagree height ⟨hash', hash, ha', hb, Ne.symm hne⟩
    · exact Option.some.inj (hb.symm.trans hb')

/-- A check passes exactly if the search finds nothing. -/
theorem checkConflicts_eq_ok_iff : a.checkConflicts b = .ok () ↔ a.conflict? b = none := by
  rw [checkConflicts]
  cases a.conflict? b <;> simp

/-- It fails exactly with the height that the search finds. -/
theorem checkConflicts_eq_error_iff {e : CheckpointError} :
    a.checkConflicts b = .error e ↔ ∃ height, a.conflict? b = some height ∧ .conflict height = e := by
  rw [checkConflicts]
  cases a.conflict? b <;> simp

/-- Two registries are checked with the same result in both directions. The check fails exactly if they disagree at
some height, and then it names the least one. It passes exactly if the checkpoints of one of them can be added to the
other one, in whichever order; and then all orders, in both directions, give the same registry. -/
theorem conflicts_decide_merging (a b : Checkpoints) :
    a.checkConflicts b = b.checkConflicts a ∧
      (∀ e, a.checkConflicts b = .error e ↔
        ∃ height, IsLeast {height | a.DisagreeAt b height} height ∧ .conflict height = e) ∧
      ∀ pairs, pairs.Perm b.toList →
        (a.checkConflicts b = .ok () ↔ ∃ c, a.addAll pairs = .ok c) ∧
          ∀ c, a.addAll pairs = .ok c →
            (∀ pairs', pairs'.Perm b.toList → a.addAll pairs' = .ok c) ∧
              ∀ pairs', pairs'.Perm a.toList → b.addAll pairs' = .ok c := by
  refine ⟨?_, fun e => ?_, fun pairs hpairs => ⟨?_, fun c hadded => ⟨?_, ?_⟩⟩⟩
  · rw [checkConflicts, checkConflicts, conflict?_comm]
  · simp only [checkConflicts_eq_error_iff, conflict?_eq_some_iff]
  · rw [checkConflicts_eq_ok_iff, conflict?_eq_none_iff, exists_addAll_iff_agree hpairs]
  · intro pairs' hpairs'
    rw [addAll_eq_ok_iff_merges hpairs] at hadded
    exact (addAll_eq_ok_iff_merges hpairs').mpr hadded
  · intro pairs' hpairs'
    rw [addAll_eq_ok_iff_merges hpairs] at hadded
    exact (addAll_eq_ok_iff_merges hpairs').mpr (merges_comm.mp hadded)

/-- Zero at heights one and two, and zero at heights two and three, are merged in whichever order. -/
theorem conflicts_decide_merging_overlap :
    let a := onlyOne.pin 2 .zero
    let b := (empty.pin 2 .zero).pin 3 .zero
    let c := (onlyOne.pin 2 .zero).pin 3 .zero
    let pairs : List (UInt64 × BlockHash) := [(3, .zero), (2, .zero)]
    pairs.Perm b.toList ∧ a.addAll pairs = .ok c ∧ a.checkConflicts b = .ok () ∧
      (∀ pairs', pairs'.Perm b.toList → a.addAll pairs' = .ok c) ∧
        ∀ pairs', pairs'.Perm a.toList → b.addAll pairs' = .ok c := by
  intro a b c pairs
  have hpairs : pairs.Perm b.toList := by decide +kernel
  have hadded : a.addAll pairs = .ok c := by decide +kernel
  obtain ⟨-, -, hmerging⟩ := conflicts_decide_merging a b
  obtain ⟨hdecides, hsame⟩ := hmerging pairs hpairs
  exact ⟨hpairs, hadded, hdecides.mpr ⟨c, hadded⟩, hsame c hadded⟩

end RingDepth.Checkpoints
