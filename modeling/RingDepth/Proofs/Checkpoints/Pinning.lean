import RingDepth.Checkpoints.Basic
import RingDepth.Proofs.Outcome

/-!
# What a registry pins

A registry is known by the hash that it pins at each height. It is kept by another one that pins all that it pins; a
checkpoint is added only to be kept together with what is there. So when pairs of a height and a hash are added one
after the other, this succeeds exactly if there is a registry that pins what is there and the pairs and nothing else,
and gives this registry. Hence their order does not matter. There is such a registry exactly if no two of them, and of
what is there, are different hashes at one height.
-/

namespace RingDepth.Checkpoints

variable {c c' c'' : Checkpoints} {height other : UInt64} {hash : BlockHash} {pairs : List (UInt64 × BlockHash)}

/-- Registries are the same if they pin the same hash at each height. -/
theorem ext_get? (h : ∀ height, c.get? height = c'.get? height) : c = c' := by
  cases c
  cases c'
  rw [mk.injEq]
  exact Std.ExtTreeMap.ext_getElem? fun height => h height

/-- An empty registry pins nothing. -/
theorem isEmpty_iff : c.isEmpty ↔ ∀ height, c.get? height = none := by
  rw [isEmpty, Std.ExtTreeMap.isEmpty_iff]
  constructor
  · intro h height
    rw [get?, h, Std.ExtTreeMap.getElem?_empty]
  · intro h
    apply Std.ExtTreeMap.ext_getElem?
    intro height
    rw [Std.ExtTreeMap.getElem?_empty]
    exact h height

/-! ### The greatest height -/

/-- No pinned height is above the greatest one. -/
theorem le_maxHeight (h : c.get? height = some hash) : height ≤ c.maxHeight := by
  have hmem : height ∈ c.points := by
    rw [Std.ExtTreeMap.mem_iff_isSome_getElem?]
    exact Option.isSome_of_eq_some h
  obtain ⟨greatest, hgreatest⟩ := Option.isSome_iff_exists.mp (Std.ExtTreeMap.isSome_maxKey?_of_mem hmem)
  rw [maxHeight, hgreatest]
  exact Std.isLE_compare.mp ((Std.ExtTreeMap.maxKey?_eq_some_iff_mem_and_forall.mp hgreatest).2 height hmem)

/-- The greatest height is pinned, if any is. -/
theorem exists_get?_maxHeight (h : ¬c.isEmpty) : ∃ hash, c.get? c.maxHeight = some hash := by
  have hsome : c.points.maxKey?.isSome := by
    rw [Std.ExtTreeMap.isSome_maxKey?_eq_not_isEmpty]
    simpa [isEmpty] using h
  obtain ⟨greatest, hgreatest⟩ := Option.isSome_iff_exists.mp hsome
  have hmem := Std.ExtTreeMap.maxKey?_mem hgreatest
  rw [maxHeight, hgreatest]
  rw [Std.ExtTreeMap.mem_iff_isSome_getElem?] at hmem
  exact Option.isSome_iff_exists.mp hmem

/-! ### Keeping what is pinned -/

/-- Whether another registry pins all that a registry pins. -/
def KeptBy (c c' : Checkpoints) : Prop := ∀ height hash, c.get? height = some hash → c'.get? height = some hash

/-- A registry keeps what it pins itself. -/
theorem KeptBy.refl (c : Checkpoints) : c.KeptBy c := fun _ _ h => h

/-- What is kept twice is kept. -/
theorem KeptBy.trans (h : c.KeptBy c') (h' : c'.KeptBy c'') : c.KeptBy c'' :=
  fun height hash hpinned => h' height hash (h height hash hpinned)

/-- The greatest height of a registry that keeps another one is not lower. -/
theorem KeptBy.maxHeight_le (h : c.KeptBy c') : c.maxHeight ≤ c'.maxHeight := by
  by_cases hempty : c.isEmpty
  · rw [maxHeight, Std.ExtTreeMap.maxKey?_eq_none_iff.mpr (Std.ExtTreeMap.isEmpty_iff.mp hempty)]
    exact UInt64.zero_le
  · obtain ⟨hash, hhash⟩ := exists_get?_maxHeight hempty
    exact le_maxHeight (h _ _ hhash)

/-! ### Adding checkpoints -/

/-- Pins a hash at a height, in place of what was pinned there. -/
def pin (c : Checkpoints) (height : UInt64) (hash : BlockHash) : Checkpoints :=
  { points := c.points.insert height hash }

/-- Only the height at which a hash is pinned is affected. -/
theorem get?_pin (c : Checkpoints) (height : UInt64) (hash : BlockHash) (other : UInt64) :
    (c.pin height hash).get? other = if height = other then some hash else c.get? other := by
  rw [pin, get?, Std.ExtTreeMap.getElem?_insert, ← get?]
  simp only [Std.LawfulEqCmp.compare_eq_iff_eq]

/-- Pinning what is pinned changes nothing. -/
theorem pin_eq_self (h : c.get? height = some hash) : c.pin height hash = c := by
  apply ext_get?
  intro other
  rw [get?_pin]
  split_ifs with hother
  · rw [← hother, h]
  · rfl

/-- A hash that is pinned where no other one is joins what is pinned. -/
theorem get?_pin_eq_some_iff (h : ∀ pinned, c.get? height = some pinned → pinned = hash) {found : BlockHash} :
    (c.pin height hash).get? other = some found ↔ c.get? other = some found ∨ (other, found) = (height, hash) := by
  rw [get?_pin]
  split_ifs with hother
  · subst hother
    simp only [Prod.mk.injEq, true_and, Option.some.injEq, eq_comm (a := found)]
    exact ⟨.inr, fun hfound => hfound.elim (fun hold => (h found hold).symm) id⟩
  · simp [Ne.symm hother]

/-- A checkpoint is added exactly if no other hash is pinned at its height. -/
theorem add_eq_ok_iff : c.add height hash = .ok c' ↔
    (∀ pinned, c.get? height = some pinned → pinned = hash) ∧ c.pin height hash = c' := by
  rw [add]
  cases hget : c.get? height with
  | none => simp [pin]
  | some pinned =>
    by_cases hsame : pinned = hash
    · subst hsame
      simp [pin_eq_self hget]
    · simp [hsame]

/-- It is refused exactly if another hash is. -/
theorem add_eq_error_iff {e : CheckpointError} : c.add height hash = .error e ↔
    (∃ pinned, c.get? height = some pinned ∧ pinned ≠ hash) ∧ .conflict height = e := by
  rw [add]
  cases hget : c.get? height with
  | none => simp
  | some pinned =>
    by_cases hsame : pinned = hash
    · simp [hsame]
    · simp [hsame]

/-- What is pinned stays pinned when a checkpoint is added. -/
theorem keptBy_of_add (h : c.add height hash = .ok c') : c.KeptBy c' := by
  obtain ⟨hagree, rfl⟩ := add_eq_ok_iff.mp h
  intro other found hfound
  exact (get?_pin_eq_some_iff hagree).mpr (.inl hfound)

/-! ### Adding several checkpoints -/

/-- Whether a hash is pinned at a height, or one of the given pairs is to pin it there. -/
def Wants (c : Checkpoints) (pairs : List (UInt64 × BlockHash)) (height : UInt64) (hash : BlockHash) : Prop :=
  c.get? height = some hash ∨ (height, hash) ∈ pairs

/-- Whether a registry pins what another one pins and the given pairs, and nothing else. -/
def Joins (c : Checkpoints) (pairs : List (UInt64 × BlockHash)) (c' : Checkpoints) : Prop :=
  ∀ height hash, c'.get? height = some hash ↔ c.Wants pairs height hash

/-- The first of the pairs can be pinned before the others, if no other hash is pinned at its height. -/
theorem wants_pin_iff (h : ∀ pinned, c.get? height = some pinned → pinned = hash) {found : BlockHash} :
    (c.pin height hash).Wants pairs other found ↔ c.Wants ((height, hash) :: pairs) other found := by
  rw [Wants, Wants, get?_pin_eq_some_iff h, List.mem_cons, or_assoc]

/-- A registry without pairs is joined by itself only. -/
theorem joins_nil : c.Joins [] c' ↔ c = c' := by
  constructor
  · intro h
    apply ext_get?
    intro height
    apply Option.ext
    intro hash
    simpa [Wants] using (h height hash).symm
  · rintro rfl height hash
    simp [Wants]

/-- The first of the pairs has to agree with what is pinned. -/
theorem joins_cons : c.Joins ((height, hash) :: pairs) c' ↔
    (∀ pinned, c.get? height = some pinned → pinned = hash) ∧ (c.pin height hash).Joins pairs c' := by
  constructor
  · intro h
    have hagree : ∀ pinned, c.get? height = some pinned → pinned = hash := by
      intro pinned hpinned
      have hnew := (h height hash).mpr (.inr List.mem_cons_self)
      have hold := (h height pinned).mpr (.inl hpinned)
      exact Option.some.inj (hold.symm.trans hnew)
    exact ⟨hagree, fun other found => (h other found).trans (wants_pin_iff hagree).symm⟩
  · rintro ⟨hagree, h⟩ other found
    exact (h other found).trans (wants_pin_iff hagree)

/-- Adds checkpoints one after the other. -/
def addAll (c : Checkpoints) (pairs : List (UInt64 × BlockHash)) : Except CheckpointError Checkpoints :=
  pairs.foldlM (fun c pair => c.add pair.1 pair.2) c

/-- The first pair is added before the others. -/
theorem addAll_cons_eq_ok_iff : c.addAll ((height, hash) :: pairs) = .ok c' ↔
    (∀ pinned, c.get? height = some pinned → pinned = hash) ∧ (c.pin height hash).addAll pairs = .ok c' := by
  rw [addAll, List.foldlM_cons, bind_eq_ok_iff]
  simp only [add_eq_ok_iff, and_assoc, exists_and_left, exists_eq_left']
  rfl

/-- Adding pairs gives a registry exactly if it pins what is there and the pairs, and nothing else. -/
theorem addAll_eq_ok_iff : c.addAll pairs = .ok c' ↔ c.Joins pairs c' := by
  induction pairs generalizing c with
  | nil =>
    rw [joins_nil]
    exact ⟨Except.ok.inj, congrArg _⟩
  | cons pair pairs ih => rw [addAll_cons_eq_ok_iff, joins_cons, ih]

/-- It gives one exactly if no two of them, and of what is there, are different hashes at one height. -/
theorem exists_addAll_eq_ok_iff : (∃ c', c.addAll pairs = .ok c') ↔
    ∀ height hash hash', c.Wants pairs height hash → c.Wants pairs height hash' → hash = hash' := by
  constructor
  · rintro ⟨c', h⟩ height hash hash' hwants hwants'
    rw [addAll_eq_ok_iff] at h
    exact Option.some.inj (((h height hash).mpr hwants).symm.trans ((h height hash').mpr hwants'))
  · intro h
    induction pairs generalizing c with
    | nil => exact ⟨c, rfl⟩
    | cons pair pairs ih =>
      have hagree : ∀ pinned, c.get? pair.1 = some pinned → pinned = pair.2 :=
        fun pinned hpinned => h pair.1 pinned pair.2 (.inl hpinned) (.inr List.mem_cons_self)
      obtain ⟨c', hc'⟩ := @ih (c.pin pair.1 pair.2) fun height hash hash' hwants hwants' =>
        h height hash hash' ((wants_pin_iff hagree).mp hwants) ((wants_pin_iff hagree).mp hwants')
      exact ⟨c', addAll_cons_eq_ok_iff.mpr ⟨hagree, hc'⟩⟩

/-- What is pinned stays pinned when several checkpoints are added. -/
theorem keptBy_of_addAll (h : c.addAll pairs = .ok c') : c.KeptBy c' :=
  fun height hash hpinned => (addAll_eq_ok_iff.mp h height hash).mpr (.inl hpinned)

end RingDepth.Checkpoints
