import RingDepth.Proofs.Checkpoints.Pinning

/-!
# Which blocks are frozen

A chain has passed a checkpoint once it holds a block at the pinned height, so a chain of some length has passed those
below this length. The blocks up to the last of these are frozen, and so is the first block. A registry freezes more
than these blocks in one case: a checkpoint at the very height of the next block counts as if the chain had passed it.
-/

namespace RingDepth.Checkpoints

variable {c : Checkpoints} {chainLength height : UInt64}

/-- Whether a chain of some length holds a block at a height, and a hash is pinned there. -/
def Passed (c : Checkpoints) (chainLength height : UInt64) : Prop :=
  height < chainLength ∧ ∃ hash, c.get? height = some hash

/-- Whether a block is not the first one, and all passed checkpoints are below it. -/
def Replaceable (c : Checkpoints) (chainLength height : UInt64) : Prop :=
  0 < height ∧ ∀ pinned, c.Passed chainLength pinned → pinned < height

/-- Whether a hash is pinned at the height of the next block of a chain, and this is not below a block. -/
def AheadOf (c : Checkpoints) (chainLength height : UInt64) : Prop :=
  height ≤ chainLength ∧ ∃ hash, c.get? chainLength = some hash

/-- The heights among which the last one is found are those that are pinned, up to the given one. -/
theorem mem_keysUpTo {pinned : UInt64} : pinned ∈ c.points.keys.filter (fun pinned => decide (pinned ≤ height)) ↔
    (∃ hash, c.get? pinned = some hash) ∧ pinned ≤ height := by
  rw [List.mem_filter, decide_eq_true_eq, Std.ExtTreeMap.mem_keys, Std.ExtTreeMap.mem_iff_isSome_getElem?,
    Option.isSome_iff_exists]
  rfl

/-- No last height is found exactly if none is pinned up to the given one. -/
theorem lastUpTo?_eq_none_iff :
    c.lastUpTo? height = none ↔ ∀ pinned hash, c.get? pinned = some hash → ¬pinned ≤ height := by
  rw [lastUpTo?, List.getLast?_eq_none_iff, List.eq_nil_iff_forall_not_mem]
  simp only [mem_keysUpTo, not_and, forall_exists_index]

/-- The last height is pinned, and no other one that is pinned up to the given one is above it. -/
theorem of_lastUpTo?_eq_some {last : UInt64} (h : c.lastUpTo? height = some last) :
    (∃ hash, c.get? last = some hash) ∧ last ≤ height ∧
      ∀ pinned hash, c.get? pinned = some hash → pinned ≤ height → pinned ≤ last := by
  obtain ⟨front, hfront⟩ := List.getLast?_eq_some_iff.mp h
  obtain ⟨hhash, hle⟩ := mem_keysUpTo.mp (List.mem_of_getLast? h)
  refine ⟨hhash, hle, fun pinned hash hpinned hup => ?_⟩
  have hordered := (c.points.ordered_keys.filter fun pinned => decide (pinned ≤ height))
  have hmem := mem_keysUpTo.mpr ⟨⟨hash, hpinned⟩, hup⟩
  rw [hfront] at hordered hmem
  obtain hbefore | hlast := List.mem_append.mp hmem
  · have hlt := (List.pairwise_append.mp hordered).2.2 pinned hbefore last (List.mem_singleton_self _)
    exact UInt64.le_of_lt (Std.compare_eq_lt.mp hlt)
  · exact UInt64.le_of_eq (List.mem_singleton.mp hlast)

/-- A registry wants all checkpoints up to the length of the chain to be below a block, since the last one is. -/
theorem allowsAlternative_eq_true_iff : c.allowsAlternative chainLength height = true ↔
    0 < height ∧ ∀ pinned hash, c.get? pinned = some hash → pinned ≤ chainLength → pinned < height := by
  rw [allowsAlternative, UInt64.pos_iff_ne_zero]
  split_ifs with hzero
  · simp [hzero]
  · rw [and_iff_right hzero]
    cases hlast : c.lastUpTo? chainLength with
    | none =>
      have habove := lastUpTo?_eq_none_iff.mp hlast
      exact iff_of_true rfl fun pinned hash hpinned hup => absurd hup (habove pinned hash hpinned)
    | some last =>
      obtain ⟨⟨hash, hhash⟩, hle, hgreatest⟩ := of_lastUpTo?_eq_some hlast
      rw [decide_eq_true_iff]
      exact ⟨fun hlt pinned hash hpinned hup => UInt64.lt_of_le_of_lt (hgreatest pinned hash hpinned hup) hlt,
        fun hall => hall last hash hhash hle⟩

/-- These are the passed ones, and the one at the height of the next block. -/
theorem allowsAlternative_iff_not_aheadOf : c.allowsAlternative chainLength height = true ↔
    c.Replaceable chainLength height ∧ ¬c.AheadOf chainLength height := by
  rw [allowsAlternative_eq_true_iff, Replaceable, and_assoc]
  refine and_congr_right fun _ => ⟨fun h => ⟨?_, ?_⟩, ?_⟩
  · rintro pinned ⟨hlt, hash, hhash⟩
    exact h pinned hash hhash (UInt64.le_of_lt hlt)
  · rintro ⟨hle, hash, hhash⟩
    exact UInt64.not_lt.mpr hle (h chainLength hash hhash (UInt64.le_refl _))
  · rintro ⟨hpassed, hnext⟩ pinned hash hhash hle
    obtain hlt | rfl := UInt64.lt_or_eq_of_le hle
    · exact hpassed pinned ⟨hlt, hash, hhash⟩
    · exact UInt64.not_le.mp fun hheight => hnext ⟨hheight, hash, hhash⟩

/-- A registry allows a block to be replaced exactly if it is replaceable and no checkpoint at the height of the next
block is at or above it. So the blocks that it allows are the replaceable ones unless there is such a checkpoint, and
then it refuses a replaceable block. -/
theorem allowsAlternative_iff_replaceable (c : Checkpoints) (chainLength height : UInt64) :
    (c.allowsAlternative chainLength height = true ↔
        c.Replaceable chainLength height ∧ ¬c.AheadOf chainLength height) ∧
      ((c.allowsAlternative chainLength height = true ↔ c.Replaceable chainLength height) ↔
        ¬(c.Replaceable chainLength height ∧ c.AheadOf chainLength height)) := by
  refine ⟨allowsAlternative_iff_not_aheadOf, ?_⟩
  rw [allowsAlternative_iff_not_aheadOf, and_iff_left_iff_imp, not_and]

/-- A chain of five blocks has not passed a checkpoint at height five, and yet its block at height three is frozen. -/
theorem not_allowed_nextPinned :
    empty.add 5 .zero = .ok (empty.pin 5 .zero) ∧ (empty.pin 5 .zero).Replaceable 5 3 ∧
      (empty.pin 5 .zero).allowsAlternative 5 3 = false := by
  refine ⟨by decide +kernel, ⟨by decide, ?_⟩, by decide +kernel⟩
  rintro pinned ⟨hlt, hash, hhash⟩
  have hne : ¬5 = pinned := fun hsame => UInt64.lt_irrefl 5 (hsame ▸ hlt)
  rw [get?_pin, if_neg hne, isEmpty_iff.mp rfl pinned] at hhash
  cases hhash

end RingDepth.Checkpoints
