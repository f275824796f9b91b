import Mathlib.Algebra.Order.BigOperators.Group.List
import RingDepth.Proofs.Spent.Grammar
import RingDepth.Proofs.Spent.Tally
import RingDepth.Proofs.Text.Lines

/-!
# The sections of a listing

A line of a listing belongs to the section of the nearest header above it. The outputs of an amount are those that the
offset lines of its sections stand for, wherever these sections are, and the amount is listed if there is such a line,
even one that stands for nothing. Lines that say nothing do not matter, and neither do offset lines above the first
header: a text without them says the same.

Listings are read line by line, with the section kept beside the numbers. What the section is at a line does not
depend on the numbers, so reading comes down to adding up entries.
-/

namespace RingDepth

namespace SpentLine

/-- What a line says, if it says something. -/
def read? (line : List Char) : Option SpentLine := parse? (Text.trimBlanks line)

/-- The amount of a header. -/
def amount? : SpentLine → Option UInt64
  | header amount => some amount
  | outputs _ => none

/-- The number of outputs that an offset line stands for. -/
def count? : SpentLine → Option UInt64
  | header _ => none
  | outputs count => some count

end SpentLine

namespace SpentCounts

open SpentLine

variable {ε : Type} {ls : List (List Char)} {line : List Char} {i : ℕ} {amount count : UInt64}

/-- What the lines of a text say. -/
def said (ls : List (List Char)) : List SpentLine := ls.filterMap read?

/-- The entries that lines make, from the section of an amount on. -/
def entries : (section? : Option UInt64) → List SpentLine → List (UInt64 × UInt64)
  | _, [] => []
  | _, .header amount :: rest => entries (some amount) rest
  | some amount, .outputs count :: rest => (amount, count) :: entries (some amount) rest
  | none, .outputs _ :: rest => entries none rest

/-- Reading lines is adding up their entries. -/
theorem addLines_eq_addAll (section? : Option UInt64) (counts : SpentCounts) (lines : List SpentLine) :
    (addLines section? counts lines : Except (Halt ε) SpentCounts) = counts.addAll (entries section? lines) := by
  induction lines generalizing section? counts with
  | nil => cases section? <;> rfl
  | cons line lines ih =>
    cases line with
    | header amount => cases section? <;> exact ih _ _
    | outputs count =>
      cases section? with
      | none => exact ih _ _
      | some amount =>
        rw [addLines, entries, addAll, List.foldlM_cons]
        exact congrArg _ (funext fun sums => ih _ sums)

/-- A listing is read by adding up the entries of its lines. -/
theorem parse_eq_addAll (text : String) :
    (parse text : Except (Halt ε) SpentCounts) = addAll ∅ (entries none (said (Text.rawLines text))) := by
  have hlines : (Text.lines text).filterMap parse? = said (Text.rawLines text) := by
    rw [Text.lines, List.filterMap_filter, List.filterMap_map, said, Text.rawLines]
    refine List.filterMap_congr fun line _ => ?_
    rw [Function.comp_apply, read?]
    cases Text.trimBlanks line <;> rfl
  rw [parse, addLines_eq_addAll, hlines]

/-- The section at the end of lines. -/
def lastSection? (lines : List SpentLine) : Option UInt64 := (lines.filterMap amount?).getLast?

/-- A header in front of lines begins the section at their end, if there is no other header. -/
theorem lastSection?_cons_header (amount : UInt64) (lines : List SpentLine) :
    lastSection? (.header amount :: lines) = (lastSection? lines).or (some amount) := by
  change (amount :: lines.filterMap amount?).getLast? = _
  rw [List.getLast?_cons, lastSection?]
  cases (lines.filterMap amount?).getLast? <;> rfl

/-- A header behind lines begins the section at their end. -/
theorem lastSection?_concat (lines : List SpentLine) (line : SpentLine) :
    lastSection? (lines ++ [line]) = line.amount?.or (lastSection? lines) := by
  rw [lastSection?, List.filterMap_append, List.getLast?_append]
  cases line <;> rfl

/-- A line behind others makes an entry if it stands for outputs and there is a section. -/
theorem entries_concat (section? : Option UInt64) (lines : List SpentLine) (line : SpentLine) :
    entries section? (lines ++ [line]) = entries section? lines ++
      (((lastSection? lines).or section?).bind fun amount => line.count?.map (amount, ·)).toList := by
  induction lines generalizing section? with
  | nil => cases line <;> cases section? <;> rfl
  | cons first lines ih =>
    cases first with
    | header amount =>
      rw [lastSection?_cons_header, Option.or_assoc, Option.some_or]
      cases section? <;> exact ih (some amount)
    | outputs count =>
      cases section? with
      | none => exact ih none
      | some amount => exact congrArg ((amount, count) :: ·) (ih (some amount))

/-- The section to which a line belongs, that of the nearest header above it. -/
def sectionAt? (ls : List (List Char)) (i : ℕ) : Option UInt64 := lastSection? (said (ls.take i))

/-- What one more line says comes after what the others say. -/
theorem said_concat (ls : List (List Char)) (line : List Char) :
    said (ls ++ [line]) = said ls ++ (read? line).toList := by
  rw [said, List.filterMap_append, ← said]
  cases h : read? line <;> simp [h]

/-- The line above is the nearest header, if it is one. -/
theorem sectionAt?_succ (ls : List (List Char)) (i : ℕ) :
    sectionAt? ls (i + 1) = ((ls[i]?.bind read?).bind amount?).or (sectionAt? ls i) := by
  rw [sectionAt?, List.take_add_one]
  cases ls[i]? with
  | none => rw [Option.toList_none, List.append_nil]; rfl
  | some line =>
    rw [Option.toList_some, said_concat, Option.bind_some]
    cases read? line with
    | none => rw [Option.toList_none, List.append_nil]; rfl
    | some l => exact lastSection?_concat _ _

/-- Whether a line belongs to the section of an amount: there is a header with this amount above it, and no other
header in between. -/
def InSection (ls : List (List Char)) (i : ℕ) (amount : UInt64) : Prop :=
  ∃ j < i, (∃ line, ls[j]? = some line ∧ Says line (.header amount)) ∧
    ∀ k, j < k → k < i → ∀ line, ls[k]? = some line → ∀ other, ¬Says line (.header other)

/-- A line belongs to the section that the line above it begins, or else to the same section as that one. -/
theorem inSection_succ : InSection ls (i + 1) amount ↔
    (∃ line, ls[i]? = some line ∧ Says line (.header amount)) ∨
      (∀ line, ls[i]? = some line → ∀ other, ¬Says line (.header other)) ∧ InSection ls i amount := by
  constructor
  · rintro ⟨j, hj, hheader, hnearest⟩
    obtain rfl | hlt := Nat.eq_or_lt_of_le (Nat.le_of_lt_succ hj)
    · exact .inl hheader
    · refine .inr ⟨hnearest i hlt (Nat.lt_succ_self i), j, hlt, hheader, fun k hjk hki => ?_⟩
      exact hnearest k hjk (Nat.lt_succ_of_lt hki)
  · rintro (hheader | ⟨hnone, j, hj, hheader, hnearest⟩)
    · exact ⟨i, Nat.lt_succ_self i, hheader, fun k hik hki => absurd hki (by omega)⟩
    · refine ⟨j, Nat.lt_succ_of_lt hj, hheader, fun k hjk hki => ?_⟩
      obtain rfl | hlt := Nat.eq_or_lt_of_le (Nat.le_of_lt_succ hki)
      · exact hnone
      · exact hnearest k hjk hlt

/-- The amount of a header is read exactly if a line says it. -/
theorem amount?_read?_eq_some_iff : (read? line).bind amount? = some amount ↔ Says line (.header amount) := by
  rw [← says_iff, ← read?]
  cases h : read? line with
  | none => simp
  | some l => cases l <;> simp [amount?]

/-- The number of outputs is read exactly if a line says that it stands for so many. -/
theorem count?_read?_eq_some_iff : (read? line).bind count? = some count ↔ Says line (.outputs count) := by
  rw [← says_iff, ← read?]
  cases h : read? line with
  | none => simp
  | some l => cases l <;> simp [count?]

/-- The section of a line is found by looking for the last header above it. -/
theorem sectionAt?_eq_some_iff : sectionAt? ls i = some amount ↔ InSection ls i amount := by
  induction i with
  | zero =>
    refine ⟨fun h => ?_, fun ⟨j, hj, _⟩ => absurd hj (Nat.not_lt_zero j)⟩
    cases h
  | succ i ih =>
    rw [sectionAt?_succ, inSection_succ, ← ih, Option.or_eq_some_iff]
    refine or_congr ?_ (and_congr_left' ?_)
    · simp only [Option.bind_assoc, Option.bind_eq_some_iff, ← amount?_read?_eq_some_iff]
    · simp only [Option.eq_none_iff_forall_ne_some, ne_eq, Option.bind_assoc, Option.bind_eq_some_iff,
        ← amount?_read?_eq_some_iff, not_exists, not_and]
      exact ⟨fun h line hline other => h other line hline, fun h other line hline => h line hline other⟩

/-- The offset lines in the sections of an amount, by position, with the number of outputs for which each stands. -/
def offsetLines (ls : List (List Char)) (amount : UInt64) : List (ℕ × UInt64) :=
  (List.range ls.length).filterMap fun i =>
    if sectionAt? ls i = some amount then ((ls[i]?.bind read?).bind count?).map (i, ·) else none

/-- They are those that belong to a section of the amount and say that they stand for so many. -/
theorem mem_offsetLines : (i, count) ∈ offsetLines ls amount ↔
    InSection ls i amount ∧ ∃ line, ls[i]? = some line ∧ Says line (.outputs count) := by
  rw [offsetLines, List.mem_filterMap, ← sectionAt?_eq_some_iff]
  simp only [← count?_read?_eq_some_iff, Option.bind_assoc]
  constructor
  · rintro ⟨j, -, hj⟩
    split_ifs at hj with hsection
    obtain ⟨n, hn, hsame⟩ := Option.map_eq_some_iff.mp hj
    obtain ⟨rfl, rfl⟩ := Prod.mk.inj hsame
    exact ⟨hsection, Option.bind_eq_some_iff.mp hn⟩
  · rintro ⟨hsection, line, hline, hcount⟩
    refine ⟨i, List.mem_range.mpr (List.getElem?_eq_some_iff.mp hline).1, ?_⟩
    rw [if_pos hsection, hline, Option.bind_some, hcount]
    rfl

/-- Each of them is listed once, in order. -/
theorem pairwise_offsetLines (ls : List (List Char)) (amount : UInt64) :
    (offsetLines ls amount).Pairwise fun front back => front.1 < back.1 := by
  have hposition {i : ℕ} {found : ℕ × UInt64}
      (h : (if sectionAt? ls i = some amount then ((ls[i]?.bind read?).bind count?).map (i, ·) else none) =
        some found) : found.1 = i := by
    split_ifs at h
    obtain ⟨n, -, rfl⟩ := Option.map_eq_some_iff.mp h
    rfl
  rw [offsetLines, List.pairwise_filterMap]
  refine List.pairwise_lt_range.imp fun hlt front hfront back hback => ?_
  rw [hposition hfront, hposition hback]
  exact hlt

/-- One more line is another offset line of an amount if it stands for outputs and belongs to its section. -/
theorem offsetLines_concat (ls : List (List Char)) (line : List Char) (amount : UInt64) :
    offsetLines (ls ++ [line]) amount = offsetLines ls amount ++
      (if sectionAt? ls ls.length = some amount then ((read? line).bind count?).map (ls.length, ·)
        else none).toList := by
  have hsection {i : ℕ} (hi : i ≤ ls.length) : sectionAt? (ls ++ [line]) i = sectionAt? ls i := by
    rw [sectionAt?, List.take_append_of_le_length hi, ← sectionAt?]
  rw [offsetLines, List.length_append, List.length_singleton, List.range_succ, List.filterMap_append]
  congr 1
  · refine List.filterMap_congr fun i hi => ?_
    have hlt := List.mem_range.mp hi
    rw [hsection (Nat.le_of_lt hlt), List.getElem?_append_left hlt]
  · rw [List.filterMap_cons, hsection (Nat.le_refl _), List.getElem?_concat_length, Option.bind_some]
    split <;> simp_all

/-- The entries of an amount are its offset lines. -/
theorem filter_entries (ls : List (List Char)) (amount : UInt64) :
    ((entries none (said ls)).filter fun entry => entry.1 = amount).map Prod.snd =
      (offsetLines ls amount).map Prod.snd := by
  induction ls using List.reverseRecOn with
  | nil => rfl
  | append_singleton ls line ih =>
    have hlast : sectionAt? ls ls.length = lastSection? (said ls) := by rw [sectionAt?, List.take_length]
    rw [offsetLines_concat, List.map_append, ← ih, hlast, said_concat]
    cases read? line with
    | none => simp
    | some l =>
      rw [Option.toList_some, entries_concat, List.filter_append, List.map_append, Option.or_none]
      congr 1
      cases lastSection? (said ls) with
      | none => rfl
      | some other =>
        cases l with
        | header _ => simp [count?]
        | outputs count => by_cases hsame : other = amount <;> simp [count?, hsame]

/-- The number of outputs for which the offset lines of an amount stand together. -/
def outputsListed (text : String) (amount : UInt64) : ℕ :=
  ((offsetLines (Text.rawLines text) amount).map fun found => found.2.toNat).sum

/-- It is the sum of the entries of the amount. -/
theorem total_entries (text : String) (amount : UInt64) :
    total (entries none (said (Text.rawLines text))) amount = outputsListed text amount := by
  have hcounts := congrArg (List.map UInt64.toNat) (filter_entries (Text.rawLines text) amount)
  rw [List.map_map, List.map_map] at hcounts
  exact congrArg List.sum hcounts

/-- An amount has no more outputs than all entries tell together. -/
theorem outputsListed_le (text : String) (amount : UInt64) :
    outputsListed text amount ≤
      ((entries none (said (Text.rawLines text))).map fun entry => entry.2.toNat).sum := by
  rw [← total_entries, total]
  exact (List.filter_sublist.map _).sum_le_sum fun _ _ => Nat.zero_le _

/-- There is an entry of an amount exactly if there is an offset line. -/
theorem exists_entry_iff (ls : List (List Char)) (amount : UInt64) :
    (∃ count, (amount, count) ∈ entries none (said ls)) ↔ ∃ i count, (i, count) ∈ offsetLines ls amount := by
  have hcounts (count : UInt64) : (amount, count) ∈ entries none (said ls) ↔
      ∃ i, (i, count) ∈ offsetLines ls amount := by
    have hmem := congrArg (count ∈ ·) (filter_entries ls amount)
    simpa using hmem
  simp only [hcounts]
  exact exists_comm

/-- The lines that matter: those that say something, without the offset lines above the first header. -/
def kept (ls : List (List Char)) : List (List Char) :=
  (ls.filter fun line => (read? line).isSome).dropWhile fun line => ((read? line).bind amount?).isNone

/-- Offset lines without a section make no entries. -/
theorem entries_dropWhile (lines : List SpentLine) :
    entries none (lines.dropWhile fun line => line.amount?.isNone) = entries none lines := by
  induction lines with
  | nil => rfl
  | cons line lines ih =>
    cases line with
    | header amount => rfl
    | outputs count => exact ih

/-- Lines that say nothing do not matter. -/
theorem said_filter (ls : List (List Char)) : said (ls.filter fun line => (read? line).isSome) = said ls := by
  rw [said, List.filterMap_filter]
  refine List.filterMap_congr fun line _ => ?_
  cases read? line <;> rfl

/-- The other lines make no entries. -/
theorem entries_kept (ls : List (List Char)) : entries none (said (kept ls)) = entries none (said ls) := by
  have hdrop (ls : List (List Char)) (hread : ∀ line ∈ ls, (read? line).isSome) :
      said (ls.dropWhile fun line => ((read? line).bind amount?).isNone) =
        (said ls).dropWhile fun line => line.amount?.isNone := by
    induction ls with
    | nil => rfl
    | cons line ls ih =>
      obtain ⟨hline, hothers⟩ := List.forall_mem_cons.mp hread
      obtain ⟨l, hl⟩ := Option.isSome_iff_exists.mp hline
      have hsaid : said (line :: ls) = l :: said ls := List.filterMap_cons_some hl
      rw [hsaid, List.dropWhile_cons, List.dropWhile_cons, hl, Option.bind_some]
      split_ifs
      · exact ih hothers
      · exact hsaid
  rw [kept, hdrop _ fun line hline => (List.mem_filter.mp hline).2, said_filter, entries_dropWhile]

/-- A text without them is read as it is with them. -/
theorem parse_unlines_kept (text : String) :
    (parse (Text.unlines (kept (Text.rawLines text))) : Except (Halt ε) SpentCounts) = parse text := by
  have hlines : said (Text.rawLines (Text.unlines (kept (Text.rawLines text)))) = said (kept (Text.rawLines text)) := by
    by_cases hnil : kept (Text.rawLines text) = []
    · rw [hnil]
      rfl
    · rw [Text.rawLines_unlines hnil]
      intro line hline
      have hmem := (List.filter_sublist.subset ((List.dropWhile_sublist _).subset hline))
      rw [Text.rawLines, Text.cutAt_eq_splitOn] at hmem
      exact Text.not_mem_of_mem_splitOn hmem
  rw [parse_eq_addAll, parse_eq_addAll, hlines, entries_kept]

/-- What is read of a text is what its lines say. -/
structure Means (text : String) (counts : SpentCounts) : Prop where
  mem_iff : ∀ amount, amount ∈ counts ↔ ∃ i count, (i, count) ∈ offsetLines (Text.rawLines text) amount
  toNat_getD : ∀ amount, (counts.getD amount 0).toNat = outputsListed text amount

/-- A listing is read exactly if a counter holds the number of each amount, and then as its lines say. -/
theorem parse_cases (ε : Type) (text : String) :
    (∃ counts, (parse text : Except (Halt ε) SpentCounts) = .ok counts ∧ Means text counts ∧
        ∀ amount, outputsListed text amount < UInt64.size) ∨
      ((parse text : Except (Halt ε) SpentCounts) = .error .overflow ∧
        ∃ amount, UInt64.size ≤ outputsListed text amount) := by
  rw [parse_eq_addAll]
  simp only [← total_entries]
  refine (addAll_empty ε _).imp_left ?_
  rintro ⟨counts, hcounts, htallies, hfits⟩
  refine ⟨counts, hcounts, ⟨fun amount => ?_, fun amount => ?_⟩, hfits⟩
  · rw [htallies.mem_iff, exists_entry_iff]
  · rw [htallies.toNat_getD, total_entries]

/-- If a counter holds the number of each amount, then a listing is read as its lines say. The amounts that are listed
are those with an offset line in one of their sections, and their numbers are those for which these lines stand.
Without the other lines the text is read as it is with them. -/
theorem parse_means (ε : Type) {text : String} (hfits : ∀ amount, outputsListed text amount < UInt64.size) :
    ∃ counts, (parse text : Except (Halt ε) SpentCounts) = .ok counts ∧ Means text counts ∧
      (∀ amount, (offsetLines (Text.rawLines text) amount).Pairwise (fun front back => front.1 < back.1) ∧
        ∀ i count, (i, count) ∈ offsetLines (Text.rawLines text) amount ↔
          InSection (Text.rawLines text) i amount ∧
            ∃ line, (Text.rawLines text)[i]? = some line ∧ Says line (.outputs count)) ∧
      Text.unlines (Text.rawLines text) = text ∧
      (parse (Text.unlines (kept (Text.rawLines text))) : Except (Halt ε) SpentCounts) = .ok counts := by
  obtain ⟨counts, hcounts, hmeans, -⟩ | ⟨-, amount, hlarge⟩ := parse_cases ε text
  · refine ⟨counts, hcounts, hmeans, fun amount => ⟨pairwise_offsetLines _ _, fun i count => mem_offsetLines⟩,
      Text.unlines_rawLines text, ?_⟩
    rw [parse_unlines_kept, hcounts]
  · exact absurd hlarge (Nat.not_le.mpr (hfits amount))

/-- A listing with an offset above the first header, a header that is not well formed, a line of too many outputs, two
sections of one amount, and an amount that is listed with no outputs. -/
def mixedListing : String :=
  "7\n@12\n 0 \r\n+5 * 3\n\n@x\n1*2*3\n18446744073709551615*1\n@0\n4\n@12\n9\n@7\n0*0\n"

/-- It is read as 5 outputs of amount 12, one of amount 0 and none of amount 7. -/
theorem parse_means_mixed :
    (∀ amount, outputsListed mixedListing amount < UInt64.size) ∧
      ∃ counts, (parse mixedListing : Except (Halt Empty) SpentCounts) = .ok counts ∧
        (counts.getD 12 0).toNat = 5 ∧ (counts.getD 0 0).toNat = 1 ∧ 7 ∈ counts ∧ (counts.getD 7 0).toNat = 0 := by
  have hfits (amount : UInt64) : outputsListed mixedListing amount < UInt64.size :=
    (outputsListed_le mixedListing amount).trans_lt (by decide +kernel)
  obtain ⟨counts, hcounts, hmeans, -⟩ := parse_means Empty hfits
  refine ⟨hfits, counts, hcounts, ?_, ?_, (hmeans.mem_iff 7).mpr ⟨13, 0, by decide +kernel⟩, ?_⟩
  all_goals
    rw [hmeans.toNat_getD]
    decide +kernel

end SpentCounts

end RingDepth
