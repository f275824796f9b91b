import Mathlib.Data.List.Induction
import Mathlib.Logic.Function.Basic
import RingDepth.Store.Batch

/-!
# Outputs that were put

What a store should know of outputs is told by the outputs that were put into it, one after the other. The number that
the next output of an amount gets is one greater than the greatest that was put, whatever gaps there are below it; and
under a number stands what was put there last. Outputs that are appended get the next numbers of their amounts one after
the other, and take the place of none.
-/

namespace RingDepth

/-- Outputs with their numbers and locations, in the order in which they were put. -/
abbrev Puts := List (OutputId × OutputLocation)

namespace Puts

/-- The number that the next output of an amount gets. -/
def next (puts : Puts) (amount : UInt64) : ℕ :=
  puts.foldl (fun n p => if p.1.amount = amount then max n (p.1.index.toNat + 1) else n) 0

/-- The location that was put last under a number. -/
def last (puts : Puts) : OutputId → Option OutputLocation :=
  puts.foldl (fun f p => Function.update f p.1 (some p.2)) fun _ => none

/-- Whether a number is the next of an amount: zero if no output of the amount was put, and otherwise one more than the
greatest number that was. -/
inductive IsNext (puts : Puts) (amount n : UInt64) : Prop
  | first (hnone : ∀ p ∈ puts, p.1.amount ≠ amount) (hn : n = 0)
  | after (p : OutputId × OutputLocation) (hp : p ∈ puts) (hamount : p.1.amount = amount)
    (hgreatest : ∀ q ∈ puts, q.1.amount = amount → q.1.index ≤ p.1.index) (hn : n.toNat = p.1.index.toNat + 1)

variable {puts : Puts} {p : OutputId × OutputLocation} {amount : UInt64} {id : OutputId} {location : OutputLocation}

/-- An output that is put raises the next number of its amount above its own. -/
theorem next_concat (puts : Puts) (p : OutputId × OutputLocation) (amount : UInt64) :
    next (puts ++ [p]) amount =
      if p.1.amount = amount then max (next puts amount) (p.1.index.toNat + 1) else next puts amount := by
  rw [next, List.foldl_append]
  rfl

/-- It stands under its number. -/
theorem last_concat (puts : Puts) (p : OutputId × OutputLocation) :
    last (puts ++ [p]) = Function.update (last puts) p.1 (some p.2) := by
  rw [last, List.foldl_append]
  rfl

/-- More outputs lower no next number. -/
theorem next_le_append (puts more : Puts) (amount : UInt64) : next puts amount ≤ next (puts ++ more) amount := by
  induction more using List.reverseRecOn with
  | nil => exact Nat.le_of_eq (by rw [List.append_nil])
  | append_singleton more p ih =>
    rw [← List.append_assoc, next_concat]
    split_ifs
    · exact Nat.le_trans ih (Nat.le_max_left _ _)
    · exact ih

/-- The number of an output that was put is below the next one. -/
theorem lt_next_of_mem (hp : p ∈ puts) : p.1.index.toNat < next puts p.1.amount := by
  obtain ⟨before, after, rfl⟩ := List.append_of_mem hp
  have hput : p.1.index.toNat < next (before ++ [p]) p.1.amount := by
    rw [next_concat, if_pos rfl]
    exact Nat.lt_of_lt_of_le (Nat.lt_succ_self _) (Nat.le_max_right _ _)
  rw [List.append_cons]
  exact Nat.lt_of_lt_of_le hput (next_le_append _ _ _)

/-- What stands under a number was put there. -/
theorem mem_of_last (h : last puts id = some location) : (id, location) ∈ puts := by
  induction puts using List.reverseRecOn with
  | nil => cases h
  | append_singleton puts p ih =>
    rw [last_concat, Function.update_apply] at h
    split_ifs at h with hid
    · cases h
      exact List.mem_append_right _ (List.mem_singleton.mpr (Prod.ext hid rfl))
    · exact List.mem_append_left _ (ih h)

/-- So its number is below the next one. -/
theorem lt_next_of_last (h : last puts id = some location) : id.index.toNat < next puts id.amount :=
  lt_next_of_mem (mem_of_last h)

/-- The next number is zero, or it was reached by an output. -/
theorem next_cases (puts : Puts) (amount : UInt64) :
    (∀ p ∈ puts, p.1.amount ≠ amount) ∧ next puts amount = 0 ∨
      ∃ p ∈ puts, p.1.amount = amount ∧ next puts amount = p.1.index.toNat + 1 := by
  induction puts using List.reverseRecOn with
  | nil => exact .inl ⟨nofun, rfl⟩
  | append_singleton puts p ih =>
    rw [next_concat]
    split_ifs with hamount
    · obtain hle | hle := Nat.le_total (next puts amount) (p.1.index.toNat + 1)
      · exact .inr ⟨p, by simp, hamount, Nat.max_eq_right hle⟩
      · rw [Nat.max_eq_left hle]
        obtain ⟨-, hzero⟩ | ⟨q, hq, hreached⟩ := ih
        · omega
        · exact .inr ⟨q, List.mem_append_left _ hq, hreached⟩
    · obtain ⟨hnone, hzero⟩ | ⟨q, hq, hreached⟩ := ih
      · refine .inl ⟨fun q hq => ?_, hzero⟩
        obtain hq | hq := List.mem_append.mp hq
        · exact hnone q hq
        · rwa [List.mem_singleton.mp hq]
      · exact .inr ⟨q, List.mem_append_left _ hq, hreached⟩

/-- The next number is the next number. -/
theorem isNext_of_toNat {n : UInt64} (h : n.toNat = next puts amount) : IsNext puts amount n := by
  obtain ⟨hnone, hzero⟩ | ⟨p, hp, hamount, hreached⟩ := next_cases puts amount
  · exact .first hnone (UInt64.toNat_inj.mp (h.trans hzero))
  · refine .after p hp hamount (fun q hq hsame => ?_) (h.trans hreached)
    have hlt := lt_next_of_mem hq
    rw [hsame, hreached] at hlt
    exact UInt64.le_iff_toNat_le.mpr (Nat.le_of_lt_succ hlt)

end Puts

/-! ### Operations of a batch -/

/-- What an operation puts. -/
def BatchStep.puts (before : Puts) : BatchStep → Puts
  | .insertOutput id location => [(id, location)]
  | .appendOutput amount location => [(⟨amount, UInt64.ofNat (before.next amount)⟩, location)]
  | _ => []

/-- The amount whose next number an operation answers. -/
def BatchStep.asks : BatchStep → Option UInt64
  | .appendOutput amount _ => some amount
  | .outputCount amount => some amount
  | _ => none

namespace Puts

/-- What operations put one after the other. -/
def ofSteps (before : Puts) : List BatchStep → Puts
  | [] => []
  | s :: rest => s.puts before ++ ofSteps (before ++ s.puts before) rest

/-- Whether operations are answered by the next numbers of the amounts that they ask for, each after what was put before
it. -/
inductive Numbers : Puts → List BatchStep → List (Option UInt64) → Prop
  | nil (before : Puts) : Numbers before [] []
  | silent {before : Puts} {s : BatchStep} {rest : List BatchStep} {answers : List (Option UInt64)}
    (hasks : s.asks = none) (h : Numbers (before ++ s.puts before) rest answers) :
    Numbers before (s :: rest) (none :: answers)
  | asked {before : Puts} {s : BatchStep} {rest : List BatchStep} {answers : List (Option UInt64)} {amount n : UInt64}
    (hasks : s.asks = some amount) (hn : IsNext before amount n)
    (h : Numbers (before ++ s.puts before) rest answers) : Numbers before (s :: rest) (some n :: answers)

/-- Whether operations come to an output whose number is the greatest of all counters, so that there is none
for the next number of its amount. -/
inductive CountsTooFar : Puts → List BatchStep → Prop
  /-- An output is stored under the greatest number. -/
  | insert {before : Puts} {id : OutputId} {location : OutputLocation} {rest : List BatchStep}
    (h : id.index.toNat + 1 = UInt64.size) : CountsTooFar before (.insertOutput id location :: rest)
  /-- The next number of an amount is the greatest one, and an output gets it. -/
  | append {before : Puts} {amount : UInt64} {location : OutputLocation} {rest : List BatchStep}
    (h : before.next amount + 1 = UInt64.size) : CountsTooFar before (.appendOutput amount location :: rest)
  | later {before : Puts} {s : BatchStep} {rest : List BatchStep} (h : CountsTooFar (before ++ s.puts before) rest) :
    CountsTooFar before (s :: rest)

/-- Operations put what the first ones put, and then what the others put. -/
theorem ofSteps_append (before : Puts) (steps more : List BatchStep) :
    ofSteps before (steps ++ more) = ofSteps before steps ++ ofSteps (before ++ ofSteps before steps) more := by
  induction steps generalizing before with
  | nil => rw [ofSteps, List.nil_append, List.nil_append, List.append_nil]
  | cons s rest ih =>
    rw [List.cons_append, ofSteps, ofSteps, ih, List.append_assoc, List.append_assoc]

/-- Operations count too far if the first of them do. -/
theorem CountsTooFar.append_right {before : Puts} {steps : List BatchStep} (h : CountsTooFar before steps)
    (more : List BatchStep) : CountsTooFar before (steps ++ more) := by
  induction h with
  | insert h => exact .insert h
  | append h => exact .append h
  | later _ ih => exact .later ih

/-- The locations of the outputs of an amount. -/
def locationsOf (outputs : List (UInt64 × OutputLocation)) (amount : UInt64) : List OutputLocation :=
  (outputs.filter fun entry => entry.1 = amount).map Prod.snd

/-- What appending outputs puts. -/
def appends (before : Puts) (outputs : List (UInt64 × OutputLocation)) : Puts :=
  ofSteps before (outputs.map fun (amount, location) => .appendOutput amount location)

section

variable {before : Puts} {outputs : List (UInt64 × OutputLocation)} {amount : UInt64}

/-- An output that is appended is put under the next number of its amount, and those behind it follow it. -/
theorem append_appends_cons (before : Puts) (entry : UInt64 × OutputLocation)
    (rest : List (UInt64 × OutputLocation)) :
    before ++ appends before (entry :: rest) =
      before ++ [(⟨entry.1, UInt64.ofNat (next before entry.1)⟩, entry.2)] ++
        appends (before ++ [(⟨entry.1, UInt64.ofNat (next before entry.1)⟩, entry.2)]) rest := by
  rw [List.append_assoc]
  rfl

/-- An output that gets the next number of its amount raises it by one. -/
theorem next_concat_next (hroom : next before amount < UInt64.size) (location : OutputLocation) :
    next (before ++ [(⟨amount, UInt64.ofNat (next before amount)⟩, location)]) amount = next before amount + 1 := by
  rw [next_concat, if_pos rfl, UInt64.toNat_ofNat_of_lt' hroom]
  exact Nat.max_eq_right (Nat.le_succ _)

/-- Outputs of other amounts leave it. -/
theorem next_concat_of_ne {p : OutputId × OutputLocation} (hother : p.1.amount ≠ amount) :
    next (before ++ [p]) amount = next before amount := by
  rw [next_concat, if_neg hother]

/-- The first of some outputs is among those of its amount. -/
theorem locationsOf_cons_self (amount : UInt64) (location : OutputLocation)
    (rest : List (UInt64 × OutputLocation)) :
    locationsOf ((amount, location) :: rest) amount = location :: locationsOf rest amount := by
  simp [locationsOf]

/-- It is among no others. -/
theorem locationsOf_cons_of_ne {entry : UInt64 × OutputLocation} (hother : entry.1 ≠ amount)
    (rest : List (UInt64 × OutputLocation)) : locationsOf (entry :: rest) amount = locationsOf rest amount := by
  simp [locationsOf, hother]

/-- Nothing stands under the next number of an amount, nor above it. -/
theorem last_eq_none {id : OutputId} (h : next before id.amount ≤ id.index.toNat) : last before id = none := by
  cases hlast : last before id with
  | none => rfl
  | some location => exact absurd (lt_next_of_last hlast) (Nat.not_lt_of_le h)

/-- Appending outputs raises the next number of each amount by the number of its outputs. -/
theorem next_appends (hroom : next (before ++ appends before outputs) amount < UInt64.size) :
    next (before ++ appends before outputs) amount = next before amount + (locationsOf outputs amount).length := by
  induction outputs generalizing before with
  | nil =>
    rw [appends, List.map_nil, ofSteps, List.append_nil]
    rfl
  | cons entry rest ih =>
    obtain ⟨a, location⟩ := entry
    rw [append_appends_cons] at hroom ⊢
    rw [ih hroom]
    by_cases hsame : a = amount
    · subst hsame
      have hnext := next_concat_next (Nat.lt_of_le_of_lt
        (Nat.le_trans (next_le_append _ _ _) (next_le_append _ _ _)) hroom) location
      rw [hnext, locationsOf_cons_self, List.length_cons]
      omega
    · rw [next_concat_of_ne hsame, locationsOf_cons_of_ne hsame]

/-- Outputs that are appended stand in order under the next numbers of their amounts. Below these all is as it was. -/
theorem last_appends (hroom : next (before ++ appends before outputs) amount < UInt64.size) (index : UInt64) :
    last (before ++ appends before outputs) ⟨amount, index⟩ =
      if index.toNat < next before amount then last before ⟨amount, index⟩
      else (locationsOf outputs amount)[index.toNat - next before amount]? := by
  induction outputs generalizing before with
  | nil =>
    rw [appends, List.map_nil, ofSteps, List.append_nil]
    split_ifs with hbelow
    · rfl
    · exact last_eq_none (Nat.le_of_not_lt hbelow)
  | cons entry rest ih =>
    obtain ⟨a, location⟩ := entry
    rw [append_appends_cons] at hroom ⊢
    rw [ih hroom, last_concat, Function.update_apply]
    by_cases hsame : a = amount
    · subst hsame
      have hlt := Nat.lt_of_le_of_lt (Nat.le_trans (next_le_append _ _ _) (next_le_append _ _ _)) hroom
      have hid : (⟨a, index⟩ : OutputId) = ⟨a, UInt64.ofNat (next before a)⟩ ↔ index.toNat = next before a := by
        simp only [OutputId.mk.injEq, true_and, ← UInt64.toNat_inj, UInt64.toNat_ofNat_of_lt' hlt]
      simp only [next_concat_next hlt, locationsOf_cons_self, hid]
      obtain hbelow | hequal | habove := Nat.lt_trichotomy index.toNat (next before a)
      · rw [if_pos (Nat.lt_succ_of_lt hbelow), if_neg (Nat.ne_of_lt hbelow), if_pos hbelow]
      · rw [if_pos (by omega), if_pos hequal, if_neg (by omega), hequal, Nat.sub_self, List.getElem?_cons_zero]
      · obtain ⟨k, hk⟩ := Nat.exists_eq_add_of_lt habove
        rw [if_neg (by omega), if_neg (by omega)]
        have hlater : index.toNat - (next before a + 1) = k := by omega
        have hplace : index.toNat - next before a = k + 1 := by omega
        rw [hlater, hplace, List.getElem?_cons_succ]
    · have hid : (⟨amount, index⟩ : OutputId) ≠ ⟨a, UInt64.ofNat (next before a)⟩ := by
        simp [Ne.symm hsame]
      rw [if_neg hid, next_concat_of_ne hsame, locationsOf_cons_of_ne hsame]

end

end Puts

end RingDepth
