import Mathlib.Data.Finset.Card
import Mathlib.Data.List.Dedup
import RingDepth.Proofs.Checkpoints.Loading

/-!
# How a load ends

A load that fails has added the lines before the one that is refused, and they stay. So it changes nothing exactly if
the text holds no lines, or the first line that it takes is refused, which then is for its hash not reading.

A load that succeeds answers how many lines it took. The heights that are pinned then and were not before are those of
these lines, of which some may be the same line again. So the answer is the number of these heights exactly if no
height is that of two lines.
-/

namespace RingDepth.Checkpoints

variable {c c' : Checkpoints} {height : UInt64} {hash : BlockHash} {text : String} {e : CheckpointError} {n : ℕ}
  {line : CheckpointLine} {lines before : List CheckpointLine}

/-! ### Failing -/

/-- Whether a line is refused behind others: its hash does not read, or one of them has another hash at its height. -/
def RefusedAfter (before : List CheckpointLine) (line : CheckpointLine) : CheckpointError → Prop
  | .invalidHash i => (Identifier.parse line.hash : Except IdentifierError BlockHash) = .error i
  | .conflict height => line.height = height ∧
      ∃ hash other : BlockHash, Identifier.parse line.hash = .ok hash ∧ (height, other) ∈ named before ∧ other ≠ hash
  | _ => False

/-- What a load leaves that stops at a line: the lines that are taken before this one are pinned, and nothing
else is besides what was. The line is the next one that is taken, and it is refused. -/
structure StopsAt (c : Checkpoints) (lines before : List CheckpointLine) (line : CheckpointLine) (e : CheckpointError)
    (c' : Checkpoints) : Prop where
  next : before ++ [line] <+: c.taken lines
  readable : Readable before
  joins : c.Joins (named before) c'
  refused : RefusedAfter before line e

/-- Nothing is pinned at the height of the line at which a load stops, except by the lines before it. -/
theorem get?_eq_some_iff_of_joins (h : line ∈ c.taken lines) (hjoins : c.Joins (named before) c') :
    c'.get? line.height = some hash ↔ (line.height, hash) ∈ named before := by
  rw [hjoins, Wants, get?_eq_none_of_mem_taken h]
  simp

/-- A line that is above all that was pinned is refused exactly for the lines before it. -/
theorem addText_eq_error_iff_refusedAfter (h : line ∈ c.taken lines) (hjoins : c.Joins (named before) c') :
    c'.addText line.height line.hash = .error e ↔ RefusedAfter before line e := by
  rw [addText_eq_error_iff]
  simp only [add_eq_error_iff, get?_eq_some_iff_of_joins h hjoins]
  cases e with
  | invalidHash i => simp [RefusedAfter]
  | conflict height =>
    simp only [RefusedAfter, reduceCtorEq, and_false, exists_false, false_or, CheckpointError.conflict.injEq]
    constructor
    · rintro ⟨hash, hhash, ⟨other, hother, hne⟩, rfl⟩
      exact ⟨rfl, hash, other, hhash, hother, hne⟩
    · rintro ⟨rfl, hash, other, hhash, hother, hne⟩
      exact ⟨hash, hhash, ⟨other, hother, hne⟩, rfl⟩
  | mismatch height expected found => simp [RefusedAfter]
  | file e => simp [RefusedAfter]
  | malformed => simp [RefusedAfter]

/-- Adding the lines that are taken ends at the first that is refused. -/
theorem addLines_taken_eq_error_iff : c.addLines (c.taken lines) = (c', .error e) ↔
    ∃ before line, c.StopsAt lines before line e c' := by
  rw [addLines_eq_error_iff]
  constructor
  · rintro ⟨before, line, after, htaken, hbefore, hrefused⟩
    obtain ⟨-, hreadable, hadded⟩ := addLines_eq_ok_iff.mp hbefore
    have hjoins := addAll_eq_ok_iff.mp hadded
    have hline : line ∈ c.taken lines := by simp [htaken]
    refine ⟨before, line, ?_, hreadable, hjoins, (addText_eq_error_iff_refusedAfter hline hjoins).mp hrefused⟩
    exact ⟨after, by simp [htaken]⟩
  · rintro ⟨before, line, ⟨after, htaken⟩, hreadable, hjoins, hrefused⟩
    have hline : line ∈ c.taken lines := by simp [← htaken]
    refine ⟨before, line, after, by simp [← htaken], ?_, (addText_eq_error_iff_refusedAfter hline hjoins).mpr hrefused⟩
    exact addLines_eq_ok_iff.mpr ⟨rfl, hreadable, addAll_eq_ok_iff.mpr hjoins⟩

/-- A load that stops at a line changes nothing exactly if this is the first line that is taken. -/
theorem StopsAt.eq_iff (h : c.StopsAt lines before line e c') : c' = c ↔ before = [] := by
  constructor
  · rintro rfl
    by_contra hne
    obtain ⟨first, rest, rfl⟩ := List.exists_cons_of_ne_nil hne
    obtain ⟨hash, hhash⟩ := h.readable first List.mem_cons_self
    have hpinned : c'.get? first.height = some hash := by
      rw [h.joins, named_cons hhash]
      exact .inr List.mem_cons_self
    have hfirst : first ∈ c'.taken lines := h.next.subset (by simp)
    cases (get?_eq_none_of_mem_taken hfirst).symm.trans hpinned
  · rintro rfl
    exact (joins_nil.mp h.joins).symm

/-- A load fails either because the text holds no lines, and then nothing is changed, or at a line that it takes, and
then the lines before it are pinned and stay so: nothing is changed exactly if there are none. -/
theorem load_eq_error_iff : c.load text = (c', .error e) ↔
    (parseLines text = .error e ∧ c' = c) ∨
      ∃ lines before line, parseLines text = .ok lines ∧ c.StopsAt lines before line e c' ∧ (c' = c ↔ before = []) := by
  cases hparse : parseLines text with
  | error i =>
    rw [load_of_malformed hparse]
    simp [and_comm, eq_comm]
  | ok lines =>
    rw [load_of_parseLines hparse, addLines_taken_eq_error_iff]
    constructor
    · rintro ⟨before, line, hstops⟩
      exact .inr ⟨lines, before, line, rfl, hstops, hstops.eq_iff⟩
    · rintro (⟨⟨⟩, -⟩ | ⟨_, before, line, ⟨⟩, hstops, -⟩)
      exact ⟨before, line, hstops⟩

/-- The first line at height two stays pinned when the line behind it does not read. -/
theorem not_unchanged_mixedFile :
    empty.load mixedFile = (empty.pin 2 .zero, .error (.invalidHash (.wrongLength 0))) ∧ empty.pin 2 .zero ≠ empty := by
  have htaken : empty.taken mixedLines = mixedLines :=
    List.filter_eq_self.mpr fun line _ => decide_eq_true (.inl rfl)
  have hget : empty.get? 2 = none := isEmpty_iff.mp rfl 2
  have hshort : (Identifier.parse (.ofList []) : Except IdentifierError BlockHash) = .error (.wrongLength 0) := by
    rw [Identifier.parse, Text.trim, String.toList_ofList, Bytes.ofText, String.toList_ofList]
    rfl
  constructor
  · rw [load_of_parseLines parseLines_mixedFile, htaken, mixedLines, addLines_cons_eq_error_iff]
    refine .inr ⟨empty.pin 2 .zero, addText_eq_ok_iff.mpr ⟨.zero, parse_zeroDigits, ?_⟩, ?_⟩
    · simp [add_eq_ok_iff, hget]
    · rw [addLines_cons_eq_error_iff]
      exact .inl ⟨addText_eq_error_iff.mpr (.inl ⟨_, hshort, rfl⟩), rfl⟩
  · intro hsame
    simpa [hsame, hget] using get?_pin empty 2 .zero 2

/-! ### Counting -/

/-- The heights that are pinned. -/
def heights (c : Checkpoints) : Finset UInt64 := c.points.keys.toFinset

/-- These are the heights at which there is a hash. -/
theorem mem_heights : height ∈ c.heights ↔ ∃ hash, c.get? height = some hash := by
  rw [heights, List.mem_toFinset, Std.ExtTreeMap.mem_keys, Std.ExtTreeMap.mem_iff_isSome_getElem?,
    Option.isSome_iff_exists, get?]

/-- The heights of the lines that are taken are new, and no others are. -/
theorem heights_sdiff_heights (h : c.addLines (c.taken lines) = (c', .ok n)) :
    c'.heights \ c.heights = ((c.taken lines).map CheckpointLine.height).toFinset := by
  obtain ⟨-, hreadable, hadded⟩ := addLines_eq_ok_iff.mp h
  have hjoins := addAll_eq_ok_iff.mp hadded
  ext height
  rw [Finset.mem_sdiff, mem_heights, mem_heights, List.mem_toFinset, List.mem_map]
  constructor
  · rintro ⟨⟨hash, hhash⟩, hold⟩
    obtain hpinned | hnamed := (hjoins height hash).mp hhash
    · exact absurd ⟨hash, hpinned⟩ hold
    · obtain ⟨line, hline, hheight, -⟩ := mem_named.mp hnamed
      exact ⟨line, hline, hheight⟩
  · rintro ⟨line, hline, rfl⟩
    obtain ⟨hash, hhash⟩ := hreadable line hline
    refine ⟨⟨hash, (hjoins _ _).mpr (.inr (mem_named.mpr ⟨line, hline, rfl, hhash⟩))⟩, ?_⟩
    simp [get?_eq_none_of_mem_taken hline]

/-- A load answers the number of lines that it took. The heights of these lines are those that are pinned now and were
not before, so there are at most as many, and exactly as many if no height is that of two lines. -/
theorem load_counts (h : c.load text = (c', .ok n)) :
    ∃ lines, parseLines text = .ok lines ∧ n = (c.taken lines).length ∧
      c'.heights \ c.heights = ((c.taken lines).map CheckpointLine.height).toFinset ∧
        (c'.heights \ c.heights).card ≤ n ∧
          (n = (c'.heights \ c.heights).card ↔ ((c.taken lines).map CheckpointLine.height).Nodup) := by
  cases hparse : parseLines text with
  | error e =>
    rw [load_of_malformed hparse] at h
    cases congrArg Prod.snd h
  | ok lines =>
    rw [load_of_parseLines hparse] at h
    obtain ⟨hlength, -, -⟩ := addLines_eq_ok_iff.mp h
    have hnew := heights_sdiff_heights h
    refine ⟨lines, rfl, hlength.symm, hnew, ?_, ?_⟩
    · calc
        _ ≤ ((c.taken lines).map CheckpointLine.height).length := hnew ▸ List.toFinset_card_le _
        _ = n := by rw [List.length_map, hlength]
    · rw [hnew, ← hlength, ← List.length_map CheckpointLine.height, eq_comm]
      exact Multiset.toFinset_card_eq_card_iff_nodup

/-- Two lines are counted where one height is new. -/
theorem load_counts_mixedFile :
    onlyOne.load mixedFile = (onlyOne.pin 2 .zero, .ok 2) ∧
      ∃ lines, parseLines mixedFile = .ok lines ∧ 2 = (onlyOne.taken lines).length ∧
        (onlyOne.pin 2 .zero).heights \ onlyOne.heights =
            ((onlyOne.taken lines).map CheckpointLine.height).toFinset ∧
          ((onlyOne.pin 2 .zero).heights \ onlyOne.heights).card ≤ 2 ∧
            (2 = ((onlyOne.pin 2 .zero).heights \ onlyOne.heights).card ↔
              ((onlyOne.taken lines).map CheckpointLine.height).Nodup) :=
  ⟨load_mixedFile, load_counts load_mixedFile⟩

/-- The number of new heights is less than the answer. -/
theorem not_counted_mixedFile :
    onlyOne.load mixedFile = (onlyOne.pin 2 .zero, .ok 2) ∧
      (onlyOne.pin 2 .zero).heights \ onlyOne.heights = {2} ∧
        ((onlyOne.pin 2 .zero).heights \ onlyOne.heights).card = 1 := by
  have hload := load_mixedFile
  rw [load_of_parseLines parseLines_mixedFile] at hload
  have hnew : (onlyOne.pin 2 .zero).heights \ onlyOne.heights = {2} := by
    rw [heights_sdiff_heights hload, taken_mixedLines]
    rfl
  exact ⟨load_mixedFile, hnew, by rw [hnew, Finset.card_singleton]⟩

end RingDepth.Checkpoints
