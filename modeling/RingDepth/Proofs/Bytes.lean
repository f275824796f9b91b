import Mathlib.Algebra.Order.Ring.Nat
import RingDepth.Bytes

/-!
# Numbers in byte strings

A number written in a fixed number of bytes reads back modulo the power of 256 that the width allows. Numbers below this
power that are written with the most significant byte first are in the order of their byte strings.
-/

namespace RingDepth.Bytes

/-- What was written with some bytes reads back up to what they cannot hold. -/
theorem ofLittleEndian_littleEndian (w n : Nat) :
    ofLittleEndian (littleEndian w n) = n % 256 ^ w := by
  induction w generalizing n with
  | zero => simp [littleEndian, ofLittleEndian, Nat.mod_one]
  | succ w ih =>
    have hbyte : (UInt8.ofNat n).toNat = n % 256 := UInt8.toNat_ofNat'
    rw [littleEndian, ofLittleEndian, ih, hbyte, Nat.pow_succ', Nat.mod_mul]

/-- The number that bytes read as is one that so many bytes hold. -/
theorem ofLittleEndian_lt (bs : Bytes) : ofLittleEndian bs < 256 ^ bs.length := by
  induction bs with
  | nil => simp [ofLittleEndian]
  | cons b bs ih =>
    have := b.toNat_lt
    simp only [ofLittleEndian, List.length_cons, Nat.pow_succ]
    omega

/-- What was written with the highest byte first reads back up to what the bytes cannot hold. -/
theorem ofBigEndian_bigEndian (w n : Nat) : ofBigEndian (bigEndian w n) = n % 256 ^ w := by
  simp [ofBigEndian, bigEndian, ofLittleEndian_littleEndian]

/-- Only the lowest bytes of a number are written. -/
theorem bigEndian_mod (w n : ℕ) : bigEndian w (n % 256 ^ w) = bigEndian w n := by
  have h := bigEndian_ofBigEndian (bigEndian w n)
  rwa [length_bigEndian, ofBigEndian_bigEndian] at h

/-- The least significant byte comes last. -/
theorem bigEndian_succ (w n : ℕ) : bigEndian (w + 1) n = bigEndian w (n / 256) ++ [UInt8.ofNat n] := by
  rw [bigEndian, littleEndian, List.reverse_cons, ← bigEndian]

/-- What comes behind byte strings of one length is compared only if they are equal. -/
theorem compare_append {xs ys : Bytes} (hlength : xs.length = ys.length) (us vs : Bytes) :
    compare (xs ++ us) (ys ++ vs) = (compare xs ys).then (compare us vs) := by
  induction xs generalizing ys with
  | nil =>
    obtain rfl := List.eq_nil_of_length_eq_zero hlength.symm
    rfl
  | cons x xs ih =>
    cases ys with
    | nil => cases hlength
    | cons y ys =>
      rw [List.cons_append, List.cons_append, List.compare_cons_cons, List.compare_cons_cons,
        ih (Nat.succ.inj hlength), Ordering.then_assoc]

/-- Of two numbers the smaller one is written as the smaller byte string. -/
theorem compare_bigEndian_of_lt {w m n : ℕ} (hmn : m < n) (hn : n < 256 ^ w) :
    compare (bigEndian w m) (bigEndian w n) = .lt := by
  induction w generalizing m n with
  | zero => omega
  | succ w ih =>
    rw [bigEndian_succ, bigEndian_succ, compare_append (by rw [length_bigEndian, length_bigEndian])]
    rcases Nat.lt_or_ge (m / 256) (n / 256) with hhigh | hhigh
    · rw [ih hhigh (by omega)]
      rfl
    · have hsame : compare (bigEndian w (m / 256)) (bigEndian w (n / 256)) = .eq := by
        rw [show m / 256 = n / 256 by omega]
        exact Std.ReflCmp.compare_self
      have hlow : UInt8.ofNat m < UInt8.ofNat n := by
        rw [UInt8.lt_iff_toNat_lt, UInt8.toNat_ofNat', UInt8.toNat_ofNat']
        omega
      rw [hsame, List.compare_cons_cons, Std.compare_eq_lt.mpr hlow]
      rfl

end RingDepth.Bytes
