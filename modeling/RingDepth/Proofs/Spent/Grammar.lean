import Mathlib.Data.Nat.Digits.Defs
import RingDepth.Proofs.Outcome
import RingDepth.Proofs.Text.Blank
import RingDepth.Spent.Listing

/-!
# What the lines of a listing say

A line says something if it is a header or an offset line between blanks. A header is the sign `@` and an amount
behind it. An offset line is an offset, or an offset and a count around a star, with blanks around both of them; the
sum of the two has to be a counter as well. Numbers are counters that are written with decimal digits, with a plus
sign in front or not. These rules are said here without regard to how lines are read, and reading a line finds
exactly what they say.
-/

namespace RingDepth

namespace Text

variable {cs text line : List Char} {n : UInt64}

/-- Whether a text writes a counter: with decimal digits, of which there is one at least, and maybe with a plus sign
in front of them. -/
def Writes (n : UInt64) (text : List Char) : Prop :=
  ∃ digits : List Char, (text = digits ∨ text = '+' :: digits) ∧ digits ≠ [] ∧ (∀ c ∈ digits, c.isDigit) ∧
    Nat.ofDigits 10 (digits.reverse.map fun c => c.toNat - '0'.toNat) = n.toNat

/-- Each digit counts by its place. -/
theorem valueOf_eq_ofDigits (digits : List Char) :
    valueOf digits = Nat.ofDigits 10 (digits.reverse.map fun c => c.toNat - '0'.toNat) := by
  rw [Nat.ofDigits_eq_foldr, List.foldr_map, List.foldr_reverse, valueOf]
  simp only [Nat.add_comm, Nat.cast_id]

/-- Digits have no plus sign in front. -/
theorem withoutPlus_of_isDigit {digits : List Char} (h : ∀ c ∈ digits, c.isDigit) : withoutPlus digits = digits := by
  unfold withoutPlus
  split
  · exact absurd (h '+' List.mem_cons_self) (by decide)
  · rfl

/-- A text is its characters after a plus sign, with this sign in front or not. -/
theorem eq_withoutPlus_or (text : List Char) : text = withoutPlus text ∨ text = '+' :: withoutPlus text := by
  unfold withoutPlus
  split
  · exact .inr rfl
  · exact .inl rfl

/-- A counter is read exactly from the texts that write it. -/
theorem counter?_eq_some_iff : counter? text = some n ↔ Writes n text := by
  have hread : counter? text = some n ↔ withoutPlus text ≠ [] ∧ (∀ c ∈ withoutPlus text, c.isDigit) ∧
      valueOf (withoutPlus text) = n.toNat := by
    rw [counter?]
    split
    · rename_i hbad
      simp only [Bool.or_eq_true, List.isEmpty_iff, Bool.not_eq_true', List.all_eq_false] at hbad
      simp only [reduceCtorEq, false_iff]
      rintro ⟨hne, hdigits, -⟩
      obtain hnil | ⟨c, hc, hnot⟩ := hbad
      · exact hne hnil
      · exact hnot (hdigits c hc)
    · rename_i hgood
      simp only [Bool.or_eq_true, List.isEmpty_iff, Bool.not_eq_true', not_or, Bool.not_eq_false,
        List.all_eq_true] at hgood
      split
      · rename_i hfits
        rw [Option.some.injEq, ← UInt64.toNat_inj, UInt64.toNat_ofNat_of_lt' hfits]
        exact ⟨fun h => ⟨hgood.1, hgood.2, h⟩, fun h => h.2.2⟩
      · rename_i hlarge
        simp only [reduceCtorEq, false_iff]
        rintro ⟨-, -, hvalue⟩
        exact hlarge (hvalue ▸ n.toNat_lt)
  rw [hread]
  constructor
  · rintro ⟨hne, hdigits, hvalue⟩
    exact ⟨_, eq_withoutPlus_or text, hne, hdigits, (valueOf_eq_ofDigits _).symm.trans hvalue⟩
  · rintro ⟨digits, htext, hne, hdigits, hvalue⟩
    have hsame : withoutPlus text = digits := by
      obtain rfl | rfl := htext
      · exact withoutPlus_of_isDigit hdigits
      · rfl
    rw [hsame]
    exact ⟨hne, hdigits, (valueOf_eq_ofDigits digits).trans hvalue⟩

/-- A numeral has no other characters than digits and a plus sign. -/
theorem Writes.eq_plus_or_isDigit (h : Writes n text) {c : Char} (hc : c ∈ text) : c = '+' ∨ c.isDigit := by
  obtain ⟨digits, rfl | rfl, -, hdigits, -⟩ := h
  · exact .inr (hdigits c hc)
  · exact (List.mem_cons.mp hc).imp_right (hdigits c)

/-- With blanks around it, it has only these besides. -/
theorem Padded.blank_or_mem (h : Padded text line) {c : Char} (hc : c ∈ line) : isBlank c ∨ c ∈ text := by
  obtain ⟨⟨front, back, rfl, hfront, hback⟩, -, -⟩ := h
  rcases List.mem_append.mp hc with hc | hc
  · exact (List.mem_append.mp hc).imp_left (hfront c)
  · exact .inl (hback c hc)

/-- A mark is not among the characters of a numeral and of the blanks around it. -/
theorem Padded.not_mem (h : Padded text line) (hwrites : Writes n text) {mark : Char}
    (hmark : isBlank mark = false ∧ mark ≠ '+' ∧ mark.isDigit = false) : mark ∉ line := by
  intro hmem
  obtain hblank | htext := h.blank_or_mem hmem
  · simp [hmark.1] at hblank
  · obtain hplus | hdigit := hwrites.eq_plus_or_isDigit htext
    · exact hmark.2.1 hplus
    · simp [hmark.2.2] at hdigit

/-- A text is split at a mark exactly if this is the first one in it. -/
theorem splitFirst?_eq_some_iff {mark : Char} {before after : List Char} :
    splitFirst? mark cs = some (before, after) ↔ mark ∉ before ∧ cs = before ++ mark :: after := by
  induction cs generalizing before with
  | nil => simp [splitFirst?]
  | cons c cs ih =>
    rw [splitFirst?]
    split_ifs with hmark
    · subst hmark
      simp only [Option.some.injEq, Prod.mk.injEq]
      constructor
      · rintro ⟨rfl, rfl⟩
        exact ⟨List.not_mem_nil, rfl⟩
      · rintro ⟨hnot, hsplit⟩
        cases before with
        | nil => exact ⟨rfl, (List.cons.inj hsplit).2⟩
        | cons d before => exact absurd ((List.cons.inj hsplit).1 ▸ List.mem_cons_self) hnot
    · simp only [Option.map_eq_some_iff, Prod.mk.injEq, Prod.exists]
      constructor
      · rintro ⟨front, rest, hrest, rfl, rfl⟩
        obtain ⟨hnot, rfl⟩ := ih.mp hrest
        exact ⟨fun hmem => (List.mem_cons.mp hmem).elim (fun h => hmark h.symm) hnot, rfl⟩
      · rintro ⟨hnot, hsplit⟩
        cases before with
        | nil => exact absurd (List.cons.inj hsplit).1 hmark
        | cons d before =>
          obtain ⟨rfl, hrest⟩ := List.cons.inj hsplit
          exact ⟨before, after, ih.mpr ⟨fun hmem => hnot (List.mem_cons_of_mem _ hmem), hrest⟩, rfl, rfl⟩

/-- It is not split exactly if there is no mark. -/
theorem splitFirst?_eq_none_iff {mark : Char} : splitFirst? mark cs = none ↔ mark ∉ cs := by
  induction cs with
  | nil => simp [splitFirst?]
  | cons c cs ih =>
    rw [splitFirst?]
    split_ifs with hmark
    · simp [hmark]
    · rw [Option.map_eq_none_iff, ih, List.mem_cons, not_or, eq_comm (a := mark)]
      exact (and_iff_right hmark).symm

end Text

namespace SpentLine

variable {line text : List Char} {l : SpentLine}

/-- What a line says, if it says something. -/
inductive Says (line : List Char) : SpentLine → Prop
  /-- A sign and an amount say that the section of the amount begins. -/
  | header {text : List Char} {amount : UInt64} (hline : Text.Padded ('@' :: text) line)
    (htext : Text.Writes amount text) : Says line (.header amount)
  | single {text : List Char} {offset : UInt64} (hline : Text.Padded text line)
    (htext : Text.Writes offset text) : Says line (.outputs 1)
  /-- An offset and a count around a star stand for as many outputs as the count says. -/
  | repeated {first second before after : List Char} {offset count : UInt64}
    (hline : Text.Padded (first ++ '*' :: second) line) (hfirst : Text.Padded before first)
    (hbefore : Text.Writes offset before) (hsecond : Text.Padded after second) (hafter : Text.Writes count after)
    (hsum : offset.toNat + count.toNat < UInt64.size) : Says line (.outputs count)

/-- An offset and a count are read exactly if both are counters, and their sum is one too. -/
theorem repeated?_eq_some_iff {first second : List Char} :
    repeated? first second = some l ↔ ∃ offset count, Text.Writes offset (Text.trimBlanks first) ∧
      Text.Writes count (Text.trimBlanks second) ∧ offset.toNat + count.toNat < UInt64.size ∧ l = .outputs count := by
  simp only [repeated?, Option.bind_eq_bind, Option.bind_eq_some_iff, Text.counter?_eq_some_iff,
    Option.pure_def, Option.some.injEq]
  constructor
  · rintro ⟨offset, hoffset, count, hcount, sum, hsum, rfl⟩
    rw [addChecked?_eq_some_iff] at hsum
    exact ⟨offset, count, hoffset, hcount, hsum ▸ sum.toNat_lt, rfl⟩
  · rintro ⟨offset, count, hoffset, hcount, hsum, rfl⟩
    exact ⟨offset, hoffset, count, hcount, _, if_pos hsum, rfl⟩

/-- A text that does not begin with the sign of a header is no header. -/
theorem parse?_of_head (h : text.head? ≠ some '@') :
    parse? text =
      match Text.splitFirst? '*' text with
      | some (offset, count) => repeated? offset count
      | none => (Text.counter? text).map fun _ => outputs 1 := by
  unfold parse?
  split
  · exact absurd rfl h
  · rfl

/-- Reading a line finds exactly what it says. -/
theorem says_iff : parse? (Text.trimBlanks line) = some l ↔ Says line l := by
  constructor
  · intro h
    have hline := Text.padded_trimBlanks line
    by_cases hhead : (Text.trimBlanks line).head? = some '@'
    · obtain ⟨amount, htext⟩ := List.head?_eq_some_iff.mp hhead
      rw [htext] at h hline
      obtain ⟨n, hn, rfl⟩ := Option.map_eq_some_iff.mp h
      exact .header hline (Text.counter?_eq_some_iff.mp hn)
    · rw [parse?_of_head hhead] at h
      split at h
      · rename_i first second hsplit
        obtain ⟨-, htext⟩ := Text.splitFirst?_eq_some_iff.mp hsplit
        obtain ⟨offset, count, hoffset, hcount, hsum, rfl⟩ := repeated?_eq_some_iff.mp h
        rw [htext] at hline
        exact .repeated hline (Text.padded_trimBlanks first) hoffset (Text.padded_trimBlanks second) hcount hsum
      · obtain ⟨n, hn, rfl⟩ := Option.map_eq_some_iff.mp h
        exact .single hline (Text.counter?_eq_some_iff.mp hn)
  · intro h
    cases h with
    | header hline htext =>
      rw [hline.trimBlanks_eq]
      exact Option.map_eq_some_iff.mpr ⟨_, Text.counter?_eq_some_iff.mpr htext, rfl⟩
    | @single text offset hline htext =>
      have hpadded : Text.Padded text text := ⟨⟨[], [], by simp⟩, hline.head, hline.last⟩
      have hhead : text.head? ≠ some '@' := fun h =>
        hpadded.not_mem htext (by decide) (List.mem_of_mem_head? h)
      have hstar : Text.splitFirst? '*' text = none :=
        Text.splitFirst?_eq_none_iff.mpr (hpadded.not_mem htext (by decide))
      rw [hline.trimBlanks_eq, parse?_of_head hhead, hstar]
      exact Option.map_eq_some_iff.mpr ⟨_, Text.counter?_eq_some_iff.mpr htext, rfl⟩
    | @repeated first second before after offset count hline hfirst hbefore hsecond hafter hsum =>
      have hhead : (first ++ '*' :: second).head? ≠ some '@' := by
        cases first with
        | nil => simp
        | cons c first =>
          intro h
          exact hfirst.not_mem hbefore (by decide) (List.mem_of_mem_head? h)
      have hstar : Text.splitFirst? '*' (first ++ '*' :: second) = some (first, second) :=
        Text.splitFirst?_eq_some_iff.mpr ⟨hfirst.not_mem hbefore (by decide), rfl⟩
      rw [hline.trimBlanks_eq, parse?_of_head hhead, hstar]
      refine repeated?_eq_some_iff.mpr ⟨offset, count, ?_, ?_, hsum, rfl⟩
      · rwa [hfirst.trimBlanks_eq]
      · rwa [hsecond.trimBlanks_eq]

/-- Whether a line says something can be found by reading it. -/
instance (line : List Char) (l : SpentLine) : Decidable (Says line l) := decidable_of_iff _ says_iff

end SpentLine

end RingDepth
