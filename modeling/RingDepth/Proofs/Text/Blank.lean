import Mathlib.Data.List.DropRight
import RingDepth.Text.Basic

/-!
# Texts between blanks

Every line is a text with blanks around it, and it is so in one way only: without the blanks at its ends a line is this
text.
-/

namespace RingDepth.Text

variable {text line : List Char}

/-- Whether a line is a text with blanks around it. The text has no blanks at its ends. -/
structure Padded (text line : List Char) : Prop where
  around : ∃ front back, line = front ++ text ++ back ∧ (∀ c ∈ front, isBlank c) ∧ ∀ c ∈ back, isBlank c
  head : ∀ c, text.head? = some c → isBlank c = false
  last : ∀ c, text.getLast? = some c → isBlank c = false

/-- Without its blanks a line is the text in it. -/
theorem padded_trimBlanks (line : List Char) : Padded (trimBlanks line) line := by
  have hrest : trimBlanks line ++ (line.dropWhile isBlank).rtakeWhile isBlank = line.dropWhile isBlank :=
    List.rdropWhile_append_rtakeWhile
  refine ⟨⟨line.takeWhile isBlank, (line.dropWhile isBlank).rtakeWhile isBlank, ?_, ?_, ?_⟩, ?_, ?_⟩
  · rw [List.append_assoc, hrest, List.takeWhile_append_dropWhile]
  · exact fun c hc => List.mem_takeWhile_imp hc
  · exact fun c hc => List.mem_rtakeWhile_imp hc
  · intro c hc
    have hhead := List.head?_dropWhile_not isBlank line
    rw [← hrest, List.head?_append, hc] at hhead
    exact hhead
  · intro c hc
    have hne : trimBlanks line ≠ [] := by
      intro hnil
      simp [hnil] at hc
    rw [List.getLast?_eq_some_getLast hne, Option.some.injEq] at hc
    rw [← hc]
    exact Bool.eq_false_iff.mpr (List.rdropWhile_last_not isBlank _ hne)

/-- There is only one text in a line. -/
theorem Padded.trimBlanks_eq (h : Padded text line) : trimBlanks line = text := by
  obtain ⟨⟨front, back, rfl, hfront, hback⟩, hhead, hlast⟩ := h
  have hends (p : List Char) (cs : List Char) (hp : ∀ c ∈ p, isBlank c)
      (hcs : ∀ c, cs.head? = some c → isBlank c = false) : (p ++ cs).dropWhile isBlank = cs := by
    rw [List.dropWhile_append_of_pos hp]
    cases cs with
    | nil => rfl
    | cons c cs => rw [List.dropWhile_cons_of_neg (by simp [hcs c rfl])]
  by_cases hnil : text = []
  · subst hnil
    have hall : (front ++ back).dropWhile isBlank = [] :=
      List.dropWhile_eq_nil_iff.mpr fun c hc => (List.mem_append.mp hc).elim (hfront c) (hback c)
    rw [List.append_nil, trimBlanks, hall]
    rfl
  · rw [trimBlanks, List.append_assoc, hends front (text ++ back) hfront, List.reverse_append,
      hends back.reverse text.reverse, List.reverse_reverse]
    · exact fun c hc => hback c (List.mem_reverse.mp hc)
    · intro c hc
      rw [List.head?_reverse] at hc
      exact hlast c hc
    · intro c hc
      refine hhead c ?_
      obtain ⟨first, rest, rfl⟩ := List.exists_cons_of_ne_nil hnil
      exact hc

end RingDepth.Text
