import Mathlib.Algebra.GroupWithZero.Nat
import Mathlib.Tactic.Common
import RingDepth.Spent.Analysis

/-!
# Round amounts

An amount is round if it is a digit other than zero with zeros behind it. This is found by taking the zeros off in a
loop and looking at what is left. A counter has at most nineteen zeros at its end, so all of them are taken off, and
the loop ends. Only from zero it would not, since what is left of zero is zero again. So zero is answered before.
-/

namespace RingDepth

/-- Whether a number is a digit other than zero with zeros behind it. -/
def DigitAndZeros (n : ℕ) : Prop := ∃ digit zeros, 1 ≤ digit ∧ digit ≤ 9 ∧ n = digit * 10 ^ zeros

/-- Only zeros are taken off a number. -/
theorem exists_eq_withoutZeros_mul (fuel n : ℕ) : ∃ zeros, n = withoutZeros fuel n * 10 ^ zeros := by
  induction fuel generalizing n with
  | zero => exact ⟨0, (Nat.mul_one n).symm⟩
  | succ fuel ih =>
    rw [withoutZeros]
    split_ifs with hzero
    · obtain ⟨zeros, hzeros⟩ := ih (n / 10)
      refine ⟨zeros + 1, ?_⟩
      calc n = n / 10 * 10 := (Nat.div_mul_cancel (Nat.dvd_of_mod_eq_zero hzero)).symm
        _ = withoutZeros fuel (n / 10) * 10 ^ zeros * 10 := by rw [← hzeros]
        _ = withoutZeros fuel (n / 10) * 10 ^ (zeros + 1) := by rw [Nat.mul_assoc, ← Nat.pow_succ]
    · exact ⟨0, (Nat.mul_one n).symm⟩

/-- All zeros are taken off if there are not too many. -/
theorem withoutZeros_digit_mul {digit : ℕ} (hpos : 1 ≤ digit) (hdigit : digit ≤ 9) {fuel zeros : ℕ}
    (hzeros : zeros ≤ fuel) : withoutZeros fuel (digit * 10 ^ zeros) = digit := by
  induction fuel generalizing zeros with
  | zero =>
    obtain rfl := Nat.le_zero.mp hzeros
    exact Nat.mul_one digit
  | succ fuel ih =>
    cases zeros with
    | zero => rw [Nat.pow_zero, Nat.mul_one, withoutZeros, if_neg (by omega)]
    | succ zeros =>
      rw [Nat.pow_succ, ← Nat.mul_assoc, withoutZeros, if_pos (Nat.mul_mod_left _ _),
        Nat.mul_div_cancel _ (by decide)]
      exact ih (Nat.le_of_succ_le_succ hzeros)

/-- The amounts that are found to be round are a digit other than zero with zeros behind it. -/
theorem isRound_iff (amount : UInt64) : isRound amount ↔ DigitAndZeros amount.toNat := by
  rw [isRound, Bool.and_eq_true, bne_iff_ne, decide_eq_true_iff]
  constructor
  · rintro ⟨hamount, hdigit⟩
    obtain ⟨zeros, hzeros⟩ := exists_eq_withoutZeros_mul 20 amount.toNat
    refine ⟨withoutZeros 20 amount.toNat, zeros, Nat.one_le_iff_ne_zero.mpr fun hnone => ?_, by omega, hzeros⟩
    rw [hnone, Nat.zero_mul] at hzeros
    exact hamount (UInt64.toNat_inj.mp hzeros)
  · rintro ⟨digit, zeros, hpos, hdigit, hamount⟩
    have hzeros : zeros ≤ 20 := by
      by_contra hmany
      have hpow : 10 ^ 21 ≤ 10 ^ zeros := Nat.pow_le_pow_right (by decide) (by omega)
      have hlarge : 10 ^ zeros ≤ digit * 10 ^ zeros := Nat.le_mul_of_pos_left _ hpos
      have hsmall := amount.toNat_lt
      omega
    have hnumber : 0 < digit * 10 ^ zeros := Nat.mul_pos hpos (Nat.pow_pos (by decide))
    constructor
    · rintro rfl
      exact Nat.ne_of_lt hnumber hamount
    · rw [hamount, withoutZeros_digit_mul hpos hdigit hzeros]
      omega

/-- The loop that takes the zeros off a word, with the number of its turns, from the word to what is left of it. -/
inductive TakesZeros : (turns : ℕ) → (rest last : UInt64) → Prop
  /-- It ends at a word whose last digit is not zero. -/
  | done {rest : UInt64} (h : rest % 10 ≠ 0) : TakesZeros 0 rest rest
  /-- If the last digit is zero, then this digit is taken off, and the loop goes on. -/
  | turn {turns : ℕ} {rest last : UInt64} (h : rest % 10 = 0) (hrest : TakesZeros turns (rest / 10) last) :
    TakesZeros (turns + 1) rest last

/-- The test of an amount, with the number of turns of its loop, and with its answer. -/
inductive TestsRound : (turns : ℕ) → (amount : UInt64) → (answer : Bool) → Prop
  | zero : TestsRound 0 0 false
  /-- For another amount, the loop has to leave a single digit. -/
  | other {turns : ℕ} {amount last : UInt64} (h : amount ≠ 0) (hloop : TakesZeros turns amount last) :
    TestsRound turns amount (last < 10)

namespace TakesZeros

variable {turns turns' : ℕ} {rest last last' : UInt64} {answer : Bool}

/-- From zero the loop does not end. -/
theorem ne_zero (h : TakesZeros turns rest last) : rest ≠ 0 := by
  induction h with
  | done h =>
    rintro rfl
    exact h rfl
  | turn _ _ ih =>
    rintro rfl
    exact ih rfl

/-- It ends after one number of turns, and leaves one word. -/
theorem unique (h : TakesZeros turns rest last) (h' : TakesZeros turns' rest last') :
    turns' = turns ∧ last' = last := by
  induction h generalizing turns' with
  | done h =>
    cases h' with
    | done => exact ⟨rfl, rfl⟩
    | turn hzero => exact absurd hzero h
  | turn h _ ih =>
    cases h' with
    | done hsome => exact absurd h hsome
    | turn _ hrest =>
      obtain ⟨rfl, rfl⟩ := ih hrest
      exact ⟨rfl, rfl⟩

/-- What it leaves is the number without its zeros, if not more of them may be taken off than it makes turns. -/
theorem withoutZeros_eq (h : TakesZeros turns rest last) {fuel : ℕ} (hfuel : turns ≤ fuel) :
    withoutZeros fuel rest.toNat = last.toNat := by
  induction h generalizing fuel with
  | done h =>
    cases fuel with
    | zero => rfl
    | succ fuel =>
      rw [withoutZeros, if_neg]
      exact fun hzero => h (UInt64.toNat_inj.mp hzero)
  | turn h _ ih =>
    obtain ⟨fuel, rfl⟩ := Nat.exists_eq_add_of_le' (Nat.one_le_of_lt hfuel)
    rw [withoutZeros, if_pos]
    · exact ih (Nat.le_of_succ_le_succ hfuel)
    · exact congrArg UInt64.toNat h

/-- A test in which the loop ends is answered by what it leaves. -/
theorem testsRound_iff (h : TakesZeros turns rest last) :
    TestsRound turns' rest answer ↔ turns' = turns ∧ answer = decide (last < 10) := by
  constructor
  · intro htest
    cases htest with
    | zero => exact absurd rfl h.ne_zero
    | other _ hloop =>
      obtain ⟨rfl, rfl⟩ := h.unique hloop
      exact ⟨rfl, rfl⟩
  · rintro ⟨rfl, rfl⟩
    exact .other h.ne_zero h

/-- The amount is found to be round if a single digit is left. -/
theorem isRound_eq (h : TakesZeros turns rest last) (hturns : turns ≤ 20) : isRound rest = decide (last < 10) := by
  rw [isRound, h.withoutZeros_eq hturns, bne_iff_ne.mpr h.ne_zero, Bool.true_and]
  exact decide_eq_decide.mpr (UInt64.lt_iff_toNat_lt (b := 10)).symm

end TakesZeros

/-- From every word but zero the loop ends, after fewer turns than the word has digits. -/
theorem exists_takesZeros {digits : ℕ} {rest : UInt64} (hsome : rest ≠ 0) (hdigits : rest.toNat < 10 ^ (digits + 1)) :
    ∃ turns ≤ digits, ∃ last, TakesZeros turns rest last := by
  induction digits generalizing rest with
  | zero =>
    refine ⟨0, Nat.le_refl 0, rest, .done fun hzero => hsome ?_⟩
    have hmod : rest.toNat % 10 = 0 := congrArg UInt64.toNat hzero
    exact UInt64.toNat_inj.mp ((Nat.mod_eq_of_lt hdigits).symm.trans hmod)
  | succ digits ih =>
    by_cases hzero : rest % 10 = 0
    · have hmod : rest.toNat % 10 = 0 := congrArg UInt64.toNat hzero
      have hdiv : (rest / 10).toNat = rest.toNat / 10 := UInt64.toNat_div rest 10
      have hpos : rest.toNat ≠ 0 := fun hnone => hsome (UInt64.toNat_inj.mp hnone)
      have hleft : (rest / 10).toNat ≠ 0 := by omega
      rw [Nat.pow_succ] at hdigits
      obtain ⟨turns, hturns, last, hloop⟩ := ih (fun hnone => hleft (congrArg UInt64.toNat hnone)) (by omega)
      exact ⟨turns + 1, Nat.succ_le_succ hturns, last, .turn hzero hloop⟩
    · exact ⟨0, Nat.zero_le _, rest, .done hzero⟩

/-- Zero is not tested by the loop, and is found not to be round. -/
theorem testsRound_zero_iff {turns : ℕ} {answer : Bool} : TestsRound turns 0 answer ↔ turns = 0 ∧ answer = false := by
  constructor
  · intro htest
    cases htest with
    | zero => exact ⟨rfl, rfl⟩
    | other h => exact absurd rfl h
  · rintro ⟨rfl, rfl⟩
    exact .zero

/-- The test of an amount ends in one way, after nineteen turns at most. Its answer is that the amount is round if and
only if the amount is a digit other than zero with zeros behind it. -/
theorem isRound_exact (amount : UInt64) :
    (∃ turns ≤ 19, ∀ turns' answer, TestsRound turns' amount answer ↔ turns' = turns ∧ answer = isRound amount) ∧
      (isRound amount ↔ DigitAndZeros amount.toNat) := by
  refine ⟨?_, isRound_iff amount⟩
  by_cases hnone : amount = 0
  · subst hnone
    exact ⟨0, Nat.zero_le _, fun _ _ => testsRound_zero_iff⟩
  · have hdigits : amount.toNat < 10 ^ (19 + 1) := Nat.lt_of_lt_of_le amount.toNat_lt (by decide)
    obtain ⟨turns, hturns, last, hloop⟩ := exists_takesZeros hnone hdigits
    rw [hloop.isRound_eq (Nat.le_succ_of_le hturns)]
    exact ⟨turns, hturns, fun _ _ => hloop.testsRound_iff⟩

end RingDepth
