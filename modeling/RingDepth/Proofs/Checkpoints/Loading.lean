import Mathlib.Data.List.Induction
import RingDepth.Checkpoints.Listing
import RingDepth.Proofs.Checkpoints.Pinning

/-!
# Loading checkpoints

A load takes the lines of a file that are above all that was pinned before, and adds them one after the other. It
fails exactly if the text of a hash among them does not read, or if two of them have different hashes at one height;
lines that are not taken cannot make it fail. If it succeeds, then the registry pins what it pinned before and what
the lines say, and nothing else, in whichever order they stand.

Whether calls succeed or fail, what is pinned once stays pinned, so the greatest pinned height never gets lower.
-/

namespace RingDepth.Checkpoints

open Text (Json)
open Text.Json (Token)

variable {c c' : Checkpoints} {height : UInt64} {hash : BlockHash} {text : String} {e : CheckpointError} {n : ℕ}
  {line : CheckpointLine} {lines : List CheckpointLine}

/-! ### Adding lines -/

/-- A text is added exactly if it reads as a hash that is added. -/
theorem addText_eq_ok_iff : c.addText height text = .ok c' ↔
    ∃ hash : BlockHash, Identifier.parse text = .ok hash ∧ c.add height hash = .ok c' := by
  rw [addText, bind_eq_ok_iff]
  simp only [mapError_eq_ok_iff]

/-- It is refused if it does not read, or the hash is. -/
theorem addText_eq_error_iff : c.addText height text = .error e ↔
    (∃ i, (Identifier.parse text : Except IdentifierError BlockHash) = .error i ∧ .invalidHash i = e) ∨
      ∃ hash : BlockHash, Identifier.parse text = .ok hash ∧ c.add height hash = .error e := by
  rw [addText]
  cases hparse : (Identifier.parse text : Except IdentifierError BlockHash) with
  | error i => simp [mapError_error, bind, Except.bind]
  | ok hash => simp [mapError_ok, bind, Except.bind]

/-- The first line is added before the others. -/
theorem addLines_cons_eq_ok_iff : c.addLines (line :: lines) = (c', .ok n) ↔
    ∃ next m, c.addText line.height line.hash = .ok next ∧ next.addLines lines = (c', .ok m) ∧ m + 1 = n := by
  rw [addLines_cons]
  cases c.addText line.height line.hash with
  | error e => simp
  | ok next => simp [Prod.ext_iff, map_eq_ok_iff, and_assoc]

/-- If it is refused, then the others are not added. -/
theorem addLines_cons_eq_error_iff : c.addLines (line :: lines) = (c', .error e) ↔
    (c.addText line.height line.hash = .error e ∧ c = c') ∨
      ∃ next, c.addText line.height line.hash = .ok next ∧ next.addLines lines = (c', .error e) := by
  rw [addLines_cons]
  cases c.addText line.height line.hash with
  | error e => simp [and_comm]
  | ok next =>
    cases hrest : next.addLines lines with
    | mk last added => cases added <;> simp [hrest, Except.map]

/-- The checkpoints that lines name. A line whose hash does not read names none. -/
def named (lines : List CheckpointLine) : List (UInt64 × BlockHash) :=
  lines.filterMap fun line => (Identifier.parse line.hash).toOption.map (line.height, ·)

/-- A line whose hash reads names a checkpoint. -/
theorem named_cons (h : Identifier.parse line.hash = .ok hash) :
    named (line :: lines) = (line.height, hash) :: named lines := by
  rw [named, List.filterMap_cons, h]
  rfl

/-- A checkpoint is named by a line of its height whose text reads as its hash. -/
theorem mem_named : (height, hash) ∈ named lines ↔
    ∃ line ∈ lines, line.height = height ∧ Identifier.parse line.hash = .ok hash := by
  simp only [named, List.mem_filterMap, Option.map_eq_some_iff, Prod.mk.injEq]
  refine exists_congr fun line => and_congr_right fun _ => ?_
  cases (Identifier.parse line.hash : Except IdentifierError BlockHash) <;> simp [Except.toOption, and_comm]

/-- Whether the text of the hash of each line reads. -/
def Readable (lines : List CheckpointLine) : Prop :=
  ∀ line ∈ lines, ∃ hash : BlockHash, Identifier.parse line.hash = .ok hash

/-- All lines are added exactly if they read and the checkpoints that they name are added. -/
theorem addLines_eq_ok_iff : c.addLines lines = (c', .ok n) ↔
    lines.length = n ∧ Readable lines ∧ c.addAll (named lines) = .ok c' := by
  induction lines generalizing c n with
  | nil => simp [addLines_nil, Readable, addAll_eq_ok_iff, named, joins_nil, and_comm]
  | cons line lines ih =>
    rw [addLines_cons_eq_ok_iff, Readable, List.forall_mem_cons, ← Readable]
    constructor
    · rintro ⟨next, m, hadd, hrest, rfl⟩
      obtain ⟨hash, hhash, hnext⟩ := addText_eq_ok_iff.mp hadd
      obtain ⟨hagree, rfl⟩ := add_eq_ok_iff.mp hnext
      obtain ⟨rfl, hreadable, hall⟩ := ih.mp hrest
      rw [named_cons hhash, addAll_cons_eq_ok_iff]
      exact ⟨rfl, ⟨⟨hash, hhash⟩, hreadable⟩, hagree, hall⟩
    · rintro ⟨rfl, ⟨⟨hash, hhash⟩, hreadable⟩, hall⟩
      rw [named_cons hhash, addAll_cons_eq_ok_iff] at hall
      refine ⟨c.pin line.height hash, lines.length, ?_, ih.mpr ⟨rfl, hreadable, hall.2⟩, rfl⟩
      exact addText_eq_ok_iff.mpr ⟨hash, hhash, add_eq_ok_iff.mpr ⟨hall.1, rfl⟩⟩

/-- Adding lines ends at the first that is refused. -/
theorem addLines_eq_error_iff : c.addLines lines = (c', .error e) ↔
    ∃ before line after, lines = before ++ line :: after ∧ c.addLines before = (c', .ok before.length) ∧
      c'.addText line.height line.hash = .error e := by
  induction lines generalizing c with
  | nil => simp [addLines_nil]
  | cons line lines ih =>
    rw [addLines_cons_eq_error_iff]
    constructor
    · rintro (⟨hrefused, rfl⟩ | ⟨next, hadd, hrest⟩)
      · exact ⟨[], line, lines, rfl, rfl, hrefused⟩
      · obtain ⟨before, refused, after, rfl, hbefore, hrefused⟩ := ih.mp hrest
        refine ⟨line :: before, refused, after, rfl, ?_, hrefused⟩
        exact addLines_cons_eq_ok_iff.mpr ⟨next, _, hadd, hbefore, rfl⟩
    · rintro ⟨before, refused, after, hlines, hbefore, hrefused⟩
      cases before with
      | nil =>
        obtain ⟨rfl, rfl⟩ := List.cons.inj hlines
        obtain rfl : c = c' := congrArg Prod.fst hbefore
        exact .inl ⟨hrefused, rfl⟩
      | cons first before =>
        obtain ⟨rfl, rfl⟩ := List.cons.inj hlines
        obtain ⟨next, m, hadd, hrest, hlength⟩ := addLines_cons_eq_ok_iff.mp hbefore
        obtain rfl : m = before.length := Nat.succ.inj hlength
        exact .inr ⟨next, hadd, ih.mpr ⟨before, refused, after, rfl, hrest, hrefused⟩⟩

/-! ### The lines that a load takes -/

/-- Whether a line is above all that is pinned. -/
def Above (c : Checkpoints) (line : CheckpointLine) : Prop := c.isEmpty ∨ c.maxHeight < line.height

instance (c : Checkpoints) : DecidablePred c.Above := fun _ => inferInstanceAs (Decidable (_ ∨ _))

/-- The lines that a load takes, which are those above all that is pinned. -/
def taken (c : Checkpoints) (lines : List CheckpointLine) : List CheckpointLine :=
  lines.filter fun line => c.Above line

/-- Exactly these lines are new to a registry. -/
theorem newLines_eq_taken (c : Checkpoints) (lines : List CheckpointLine) : c.newLines lines = c.taken lines := by
  rw [newLines, taken]
  split_ifs with hempty
  · rw [List.filter_eq_self.mpr]
    exact fun line _ => decide_eq_true (.inl hempty)
  · apply List.filter_congr
    intro line _
    rw [decide_eq_decide, Above, or_iff_right hempty]

/-- Nothing is pinned at the height of a line that is above all that is. -/
theorem get?_eq_none_of_mem_taken (h : line ∈ c.taken lines) : c.get? line.height = none := by
  obtain hempty | habove := of_decide_eq_true (List.mem_filter.mp h).2
  · exact isEmpty_iff.mp hempty _
  · rw [Option.eq_none_iff_forall_ne_some]
    intro hash hpinned
    exact UInt64.lt_irrefl _ (UInt64.lt_of_lt_of_le habove (le_maxHeight hpinned))

/-- A text that holds no lines is not loaded. -/
theorem load_of_malformed (h : parseLines text = .error e) : c.load text = (c, .error e) := by
  rw [load, h]

/-- The lines of a text that are taken are added. -/
theorem load_of_parseLines (h : parseLines text = .ok lines) : c.load text = c.addLines (c.taken lines) := by
  rw [load, h]
  exact congrArg c.addLines (newLines_eq_taken c lines)

/-- Whether the hash of a line does not read, or two lines have different hashes at one height. -/
def Contradictory (lines : List CheckpointLine) : Prop :=
  (∃ line ∈ lines, ∃ i, (Identifier.parse line.hash : Except IdentifierError BlockHash) = .error i) ∨
    ∃ line ∈ lines, ∃ line' ∈ lines, line.height = line'.height ∧
      ∃ hash hash' : BlockHash, Identifier.parse line.hash = .ok hash ∧ Identifier.parse line'.hash = .ok hash' ∧
        hash ≠ hash'

/-- Lines that are above all that is pinned are added exactly if they do not contradict each other. -/
theorem exists_addLines_taken_iff :
    (∃ c' n, c.addLines (c.taken lines) = (c', .ok n)) ↔ ¬Contradictory (c.taken lines) := by
  simp only [addLines_eq_ok_iff, exists_eq_left', exists_and_left, exists_addAll_eq_ok_iff]
  constructor
  · rintro ⟨hreadable, hagree⟩ (⟨line, hline, i, hi⟩ | ⟨line, hline, line', hline', hsame, hash, hash', hhashes⟩)
    · obtain ⟨hash, hhash⟩ := hreadable line hline
      cases hi.symm.trans hhash
    · obtain ⟨hhash, hhash', hne⟩ := hhashes
      apply hne
      apply hagree line.height hash hash'
      · exact .inr (mem_named.mpr ⟨line, hline, rfl, hhash⟩)
      · exact .inr (mem_named.mpr ⟨line', hline', hsame.symm, hhash'⟩)
  · intro h
    rw [Contradictory, not_or] at h
    obtain ⟨hreadable, hagree⟩ := h
    have hnew {height hash} (hnamed : (height, hash) ∈ named (c.taken lines)) : c.get? height = none := by
      obtain ⟨line, hline, rfl, -⟩ := mem_named.mp hnamed
      exact get?_eq_none_of_mem_taken hline
    constructor
    · intro line hline
      cases hparse : (Identifier.parse line.hash : Except IdentifierError BlockHash) with
      | error i => exact absurd ⟨line, hline, i, hparse⟩ hreadable
      | ok hash => exact ⟨hash, rfl⟩
    · rintro height hash hash' (hold | hnamed) (hold' | hnamed')
      · exact Option.some.inj (hold.symm.trans hold')
      · cases (hnew hnamed').symm.trans hold
      · cases (hnew hnamed).symm.trans hold'
      · obtain ⟨line, hline, rfl, hhash⟩ := mem_named.mp hnamed
        obtain ⟨line', hline', hsame, hhash'⟩ := mem_named.mp hnamed'
        by_contra hne
        exact hagree ⟨line, hline, line', hline', hsame.symm, hash, hash', hhash, hhash', hne⟩

/-! ### Calls -/

/-- A call that may change a registry. -/
inductive Call where
  | add (height : UInt64) (hash : BlockHash)
  | addText (height : UInt64) (text : String)
  | load (text : String)

/-- The registry after a call. A checkpoint that is refused leaves it as it was. -/
def after (c : Checkpoints) : Call → Checkpoints
  | .add height hash => (c.add height hash).toOption.getD c
  | .addText height text => (c.addText height text).toOption.getD c
  | .load text => (c.load text).1

/-- The registry after several calls. -/
def run (c : Checkpoints) (calls : List Call) : Checkpoints := calls.foldl after c

/-- What is pinned stays pinned when lines are added, even if one of them is refused. -/
theorem keptBy_addLines (c : Checkpoints) (lines : List CheckpointLine) : c.KeptBy (c.addLines lines).1 := by
  cases hlines : c.addLines lines with
  | mk c' added =>
    cases added with
    | ok n => exact keptBy_of_addAll (addLines_eq_ok_iff.mp hlines).2.2
    | error e =>
      obtain ⟨before, line, after, -, hbefore, -⟩ := addLines_eq_error_iff.mp hlines
      exact keptBy_of_addAll (addLines_eq_ok_iff.mp hbefore).2.2

/-- What is pinned stays pinned if it does where something is added, as a refusal leaves the registry as it was. -/
theorem keptBy_getD {added : Except CheckpointError Checkpoints} (h : ∀ c', added = .ok c' → c.KeptBy c') :
    c.KeptBy (added.toOption.getD c) := by
  cases added with
  | ok c' => exact h c' rfl
  | error e => exact .refl c

/-- What is pinned stays pinned after a call. -/
theorem keptBy_after (c : Checkpoints) (call : Call) : c.KeptBy (c.after call) := by
  cases call with
  | add height hash =>
    rw [after]
    exact keptBy_getD fun c' hadd => keptBy_of_add hadd
  | addText height text =>
    rw [after]
    apply keptBy_getD
    intro c' htext
    obtain ⟨hash, -, hadd⟩ := addText_eq_ok_iff.mp htext
    exact keptBy_of_add hadd
  | load text =>
    rw [after]
    cases hparse : parseLines text with
    | ok lines =>
      rw [load_of_parseLines hparse]
      exact keptBy_addLines c _
    | error e =>
      rw [load_of_malformed hparse]
      exact .refl c

/-- What is pinned stays pinned after all calls. -/
theorem keptBy_run (c : Checkpoints) (calls : List Call) : c.KeptBy (c.run calls) := by
  induction calls generalizing c with
  | nil => exact .refl c
  | cons call calls ih => exact (keptBy_after c call).trans (ih (c.after call))

/-- Lines that are added in one order are added in all, with the same result. -/
theorem addLines_perm {lines' : List CheckpointLine} (hperm : lines'.Perm lines)
    (h : c.addLines lines = (c', .ok n)) : c.addLines lines' = (c', .ok n) := by
  rw [addLines_eq_ok_iff, addAll_eq_ok_iff] at h ⊢
  obtain ⟨hlength, hreadable, hjoins⟩ := h
  have hnamed : (named lines').Perm (named lines) := hperm.filterMap _
  refine ⟨hperm.length_eq.trans hlength, fun line hline => hreadable line (hperm.mem_iff.mp hline), ?_⟩
  intro height hash
  rw [hjoins, Wants, Wants, hnamed.mem_iff]

/-- A load fails exactly if the lines that it takes contradict each other. -/
theorem exists_load_eq_error_iff (h : parseLines text = .ok lines) :
    (∃ e, (c.load text).2 = .error e) ↔ Contradictory (c.taken lines) := by
  rw [load_of_parseLines h, ← not_iff_not, ← exists_addLines_taken_iff]
  cases c.addLines (c.taken lines) with
  | mk c' added => cases added <;> simp

/-- Whatever calls there are, and whether they succeed or fail, what is pinned stays pinned and the greatest pinned
height gets no lower. A load fails exactly if the hash of a line above it does not read, or two of these lines have
different hashes at one height. If it succeeds, then the registry pins what it pinned before and what these lines say,
and nothing else; and a text with the same lines in another order is loaded with the same result. -/
theorem grows_exactly (c : Checkpoints) :
    (∀ calls, c.KeptBy (c.run calls) ∧ c.maxHeight ≤ (c.run calls).maxHeight) ∧
      ∀ text lines, parseLines text = .ok lines →
        ((∃ e, (c.load text).2 = .error e) ↔ Contradictory (c.taken lines)) ∧
          (∀ n, (c.load text).2 = .ok n → c.Joins (named (c.taken lines)) (c.load text).1) ∧
            ∀ text' lines', parseLines text' = .ok lines' → lines'.Perm lines → ∀ n, (c.load text).2 = .ok n →
              c.load text' = c.load text := by
  refine ⟨fun calls => ⟨keptBy_run c calls, (keptBy_run c calls).maxHeight_le⟩, fun text lines hlines => ?_⟩
  refine ⟨exists_load_eq_error_iff hlines, fun n hn => ?_, fun text' lines' hlines' hperm n hn => ?_⟩
  · rw [load_of_parseLines hlines] at hn ⊢
    exact addAll_eq_ok_iff.mp (addLines_eq_ok_iff.mp (Prod.ext rfl hn)).2.2
  · rw [load_of_parseLines hlines, load_of_parseLines hlines'] at *
    have hadded : c.addLines (c.taken lines) = ((c.addLines (c.taken lines)).1, .ok n) := Prod.ext rfl hn
    exact (addLines_perm (hperm.filter _) hadded).trans hadded.symm

/-- The digits of the hash that is zero. -/
def zeroDigits : List Char := List.replicate 64 '0'

/-- They read as this hash. -/
theorem parse_zeroDigits : (Identifier.parse (.ofList zeroDigits) : Except IdentifierError BlockHash) = .ok .zero := by
  rw [Identifier.parse, Text.trim, String.toList_ofList, Bytes.ofText, String.toList_ofList]
  decide +kernel

/-- What a line is written as. -/
def writtenLine (height hash : List Char) : List Char :=
  ['\x7b', '"', 'h', 'e', 'i', 'g', 'h', 't', '"', ':'] ++ height ++
    [',', '"', 'h', 'a', 's', 'h', '"', ':', '"'] ++ hash ++ ['"', '\x7d']

/-- The text of a file with three lines. -/
def writtenFile (first second third : List Char) : String :=
  .ofList (['\x7b', '"', 'h', 'a', 's', 'h', 'l', 'i', 'n', 'e', 's', '"', ':', '['] ++
    first ++ [','] ++ second ++ [','] ++ third ++ [']', '\x7d'])

/-- The tokens of a line. -/
def lineTokens (height hash : List Char) : List Token :=
  [.openObject, .text (some "height"), .colon, .number (.ofList height), .comma, .text (some "hash"), .colon,
    .text (some (.ofList hash)), .closeObject]

/-- The tokens of a file with three lines. -/
def fileTokens (first second third : List Token) : List Token :=
  [.openObject, .text (some "hashlines"), .colon, .openList] ++
    first ++ [.comma] ++ second ++ [.comma] ++ third ++ [.closeList, .closeObject]

/-- The value that the tokens of a line stand for. -/
def lineValue (height hash : List Char) : Json :=
  .object [(some "height", .number (.ofList height)), (some "hash", .text (some (.ofList hash)))]

/-- It is a line if the height is one. -/
theorem line?_lineValue {digits : List Char} (h : height? (.number (.ofList digits)) = some height) (hash : List Char) :
    line? (lineValue digits hash) = some ⟨height, .ofList hash⟩ := by
  simp [lineValue, line?, member?, hashText?, h]

/-- The lines of a file with these tokens. -/
theorem parseLines_of_tokens {first second third : UInt64} {digits digits' digits'' hash hash' hash'' : List Char}
    (htokens : Json.tokens? text =
      some (fileTokens (lineTokens digits hash) (lineTokens digits' hash') (lineTokens digits'' hash'')))
    (hfirst : height? (.number (.ofList digits)) = some first)
    (hsecond : height? (.number (.ofList digits')) = some second)
    (hthird : height? (.number (.ofList digits'')) = some third) :
    parseLines text = .ok [⟨first, .ofList hash⟩, ⟨second, .ofList hash'⟩, ⟨third, .ofList hash''⟩] := by
  have hparse : Json.parse? text = some (.object [(some "hashlines",
      .list [lineValue digits hash, lineValue digits' hash', lineValue digits'' hash''])]) := by
    rw [Json.parse?, htokens]
    rfl
  rw [parseLines, hparse]
  simp [file?, member?, lineList?, line?_lineValue hfirst, line?_lineValue hsecond, line?_lineValue hthird]

/-- One and two are heights. -/
theorem height?_digits : height? (.number (.ofList ['1'])) = some 1 ∧ height? (.number (.ofList ['2'])) = some 2 := by
  simp +decide [height?, String.toNat?, String.Slice.toNat?, String.Slice.isNat]

/-- A file with two equal lines at height two, and between them a line at height one whose hash does not read. -/
def mixedFile : String :=
  writtenFile (writtenLine ['2'] zeroDigits) (writtenLine ['1'] []) (writtenLine ['2'] zeroDigits)

/-- The lines of this file. -/
def mixedLines : List CheckpointLine := [⟨2, .ofList zeroDigits⟩, ⟨1, .ofList []⟩, ⟨2, .ofList zeroDigits⟩]

/-- They are read from it. -/
theorem parseLines_mixedFile : parseLines mixedFile = .ok mixedLines := by
  refine parseLines_of_tokens ?_ height?_digits.2 height?_digits.1 height?_digits.2
  rw [Json.tokens?, ← String.length_toList, mixedFile, writtenFile, String.toList_ofList]
  decide +kernel

/-- A file with the same lines in the order of their heights. -/
def sortedFile : String :=
  writtenFile (writtenLine ['1'] []) (writtenLine ['2'] zeroDigits) (writtenLine ['2'] zeroDigits)

/-- The lines of this file. -/
def sortedLines : List CheckpointLine := [⟨1, .ofList []⟩, ⟨2, .ofList zeroDigits⟩, ⟨2, .ofList zeroDigits⟩]

/-- They are read from it. -/
theorem parseLines_sortedFile : parseLines sortedFile = .ok sortedLines := by
  refine parseLines_of_tokens ?_ height?_digits.1 height?_digits.2 height?_digits.2
  rw [Json.tokens?, ← String.length_toList, sortedFile, writtenFile, String.toList_ofList]
  decide +kernel

/-- The registry that only pins zero at height one. -/
def onlyOne : Checkpoints := empty.pin 1 .zero

/-- That is its greatest height. -/
theorem maxHeight_onlyOne : onlyOne.maxHeight = 1 := by
  rw [maxHeight, onlyOne, pin, Std.ExtTreeMap.maxKey?_insert, empty, Std.ExtTreeMap.maxKey?_empty]
  rfl

/-- With zero at height one pinned, the line there is not taken. -/
theorem taken_mixedLines : onlyOne.taken mixedLines = [⟨2, .ofList zeroDigits⟩, ⟨2, .ofList zeroDigits⟩] := by
  have hempty : onlyOne.isEmpty = false := by decide +kernel
  simp [taken, mixedLines, Above, maxHeight_onlyOne, hempty]

/-- The lines that are taken are the same twice, so a single checkpoint is added, and both lines are counted. -/
theorem load_mixedFile : onlyOne.load mixedFile = (onlyOne.pin 2 .zero, .ok 2) := by
  have hhash : Identifier.parse (CheckpointLine.mk 2 (.ofList zeroDigits)).hash = .ok .zero := parse_zeroDigits
  have hget : onlyOne.get? 2 = none := by
    rw [onlyOne, get?_pin]
    rfl
  rw [load_of_parseLines parseLines_mixedFile, taken_mixedLines, addLines_eq_ok_iff, named_cons hhash,
    named_cons hhash, addAll_eq_ok_iff, joins_cons, joins_cons, named, List.filterMap_nil, joins_nil]
  refine ⟨rfl, ?_, ?_⟩
  · simp [Readable, parse_zeroDigits]
  · simp [hget, get?_pin, pin_eq_self]

/-- So both orders are loaded with the same result. -/
theorem grows_exactly_mixedFile :
    parseLines mixedFile = .ok mixedLines ∧ parseLines sortedFile = .ok sortedLines ∧ sortedLines.Perm mixedLines ∧
      (onlyOne.load mixedFile).2 = .ok 2 ∧ onlyOne.Joins (named (onlyOne.taken mixedLines)) (onlyOne.load mixedFile).1 ∧
        onlyOne.load sortedFile = onlyOne.load mixedFile := by
  have hperm : sortedLines.Perm mixedLines := .swap _ _ _
  have hload : (onlyOne.load mixedFile).2 = .ok 2 := congrArg Prod.snd load_mixedFile
  obtain ⟨-, hadds, horder⟩ := (grows_exactly onlyOne).2 mixedFile mixedLines parseLines_mixedFile
  exact ⟨parseLines_mixedFile, parseLines_sortedFile, hperm, hload, hadds 2 hload,
    horder sortedFile sortedLines parseLines_sortedFile hperm 2 hload⟩

end RingDepth.Checkpoints
