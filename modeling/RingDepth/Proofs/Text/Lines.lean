import Mathlib.Tactic.SplitIfs
import RingDepth.Text.Basic

/-!
# The lines of a text

Cutting a text at its line feeds and putting the lines together again are inverse to each other. So lines without line
feeds are told apart in the text that they make up.
-/

namespace RingDepth.Text

variable {mark : Char} {cs : List Char} {ls : List (List Char)}

/-- Cutting a text is splitting its list of characters. -/
theorem cutAt_eq_splitOn (mark : Char) (cs : List Char) : cutAt mark cs = cs.splitOn mark := by
  induction cs with
  | nil => rfl
  | cons c cs ih =>
    obtain ⟨piece, pieces, hsplit⟩ := List.exists_cons_of_ne_nil (List.splitOn_ne_nil mark cs)
    rw [cutAt, List.splitOn_cons_eq_if_modifyHead, ih, hsplit]
    by_cases hmark : c = mark
    · rw [if_pos hmark, if_pos (beq_iff_eq.mpr hmark)]
    · rw [if_neg hmark, if_neg (mt beq_iff_eq.mp hmark)]
      rfl

/-- No piece has a mark in it. -/
theorem not_mem_of_mem_splitOn {piece : List Char} (h : piece ∈ cs.splitOn mark) : mark ∉ piece := by
  induction cs generalizing piece with
  | nil =>
    rw [List.splitOn_nil, List.mem_singleton] at h
    rw [h]
    exact List.not_mem_nil
  | cons c cs ih =>
    obtain ⟨first, pieces, hsplit⟩ := List.exists_cons_of_ne_nil (List.splitOn_ne_nil mark cs)
    rw [List.splitOn_cons_eq_if_modifyHead, hsplit] at h
    rw [hsplit] at ih
    split_ifs at h with hmark
    · obtain rfl | hrest := List.mem_cons.mp h
      · exact List.not_mem_nil
      · exact ih hrest
    · obtain rfl | hrest := List.mem_cons.mp h
      · rw [List.mem_cons, not_or]
        exact ⟨fun hsame => hmark (beq_iff_eq.mpr hsame.symm), ih List.mem_cons_self⟩
      · exact ih (List.mem_cons_of_mem _ hrest)

/-- The lines of a text, each with its blanks. There is always one line more than there are line feeds. -/
def rawLines (s : String) : List (List Char) := cutAt '\n' s.toList

/-- The text that has some lines. -/
def unlines (ls : List (List Char)) : String := String.ofList (List.intercalate ['\n'] ls)

/-- A text is made up of its lines. -/
theorem unlines_rawLines (s : String) : unlines (rawLines s) = s := by
  rw [unlines, rawLines, cutAt_eq_splitOn, List.intercalate_splitOn, String.ofList_toList]

/-- A text that is made up of some lines has these lines. -/
theorem rawLines_unlines (hne : ls ≠ []) (h : ∀ line ∈ ls, '\n' ∉ line) : rawLines (unlines ls) = ls := by
  rw [unlines, rawLines, cutAt_eq_splitOn, String.toList_ofList, List.splitOn_intercalate _ h hne]

/-- A text that is put together from texts of one line each has these lines. -/
theorem rawLines_intercalate {texts : List String} (hne : texts ≠ []) (h : ∀ text ∈ texts, '\n' ∉ text.toList) :
    rawLines ("\n".intercalate texts) = texts.map String.toList := by
  have htext : "\n".intercalate texts = unlines (texts.map String.toList) := by
    rw [unlines, ← String.toList_inj, String.toList_ofList, String.toList_intercalate]
    rfl
  rw [htext, rawLines_unlines (by simpa using hne) (by simpa using h)]

end RingDepth.Text
