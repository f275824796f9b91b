import RingDepth.Bytes

/-!
# Hexadecimal text

Two digits a byte, lowercase when written and of either case when read.
-/

namespace RingDepth

/-- Why a text is no hexadecimal byte string. -/
inductive HexError where
  | oddLength
  | invalidDigit (byte : UInt8) (position : Nat)
deriving DecidableEq, Repr

namespace Hex

/-- The lowercase digit of the low half of a byte. -/
def digit (n : UInt8) : UInt8 := if n % 16 < 10 then 0x30 + n % 16 else 0x61 + (n % 16 - 10)

/-- The value of a digit of either case. -/
def digitValue? (b : UInt8) : Option UInt8 :=
  if 0x30 ≤ b ∧ b ≤ 0x39 then some (b - 0x30)
  else if 0x61 ≤ b ∧ b ≤ 0x66 then some (b - 0x61 + 10)
  else if 0x41 ≤ b ∧ b ≤ 0x46 then some (b - 0x41 + 10)
  else none

/-- The digits of a byte string, as the bytes of an ASCII text. -/
def encode : Bytes → Bytes
  | [] => []
  | b :: bs => digit (b / 16) :: digit b :: encode bs

/-- The digits of a byte string. -/
def toText (bs : Bytes) : String := String.ofList ((encode bs).map fun b => Char.ofNat b.toNat)

/-- The value of the digit at a position. -/
def readDigit (b : UInt8) (position : Nat) : Except HexError UInt8 :=
  match digitValue? b with
  | some v => .ok v
  | none => .error (.invalidDigit b position)

/-- Reads pairs of digits, the first of them at the given position. -/
def decodeFrom (position : Nat) : Bytes → Except HexError Bytes
  | high :: low :: rest => do
    let h ← readDigit high position
    let l ← readDigit low (position + 1)
    let bs ← decodeFrom (position + 2) rest
    return (16 * h + l) :: bs
  | _ => .ok []

/-- Reads a whole text of digits; its length is looked at first. -/
def decode (digits : Bytes) : Except HexError Bytes :=
  if digits.length % 2 = 1 then .error .oddLength else decodeFrom 0 digits

/-- A digit that was written is read, and stands for the number of its lowest four bits. -/
theorem digitValue?_digit (n : UInt8) : digitValue? (digit n) = some (n % 16) := by
  have h : ∀ i : Fin 256, digitValue? (digit (UInt8.ofFin i)) = some (UInt8.ofFin i % 16) := by
    decide +kernel
  exact h n.toFin

/-- A byte is put together of the halves that its two digits stand for. -/
theorem high_low (b : UInt8) : 16 * (b / 16 % 16) + b % 16 = b := by
  have h : ∀ i : Fin 256, 16 * (UInt8.ofFin i / 16 % 16) + UInt8.ofFin i % 16 = UInt8.ofFin i := by
    decide +kernel
  exact h b.toFin

/-- Two digits are written for each byte. -/
@[simp] theorem length_encode (bs : Bytes) : (encode bs).length = 2 * bs.length := by
  induction bs with
  | nil => rfl
  | cons b bs ih => simp only [encode, List.length_cons, ih]; omega

/-- Digits that were written read back from any position on. -/
theorem decodeFrom_encode (position : Nat) (bs : Bytes) :
    decodeFrom position (encode bs) = .ok bs := by
  induction bs generalizing position with
  | nil => rfl
  | cons b bs ih =>
    simp [encode, decodeFrom, readDigit, digitValue?_digit, ih, high_low, bind, Except.bind, pure,
      Except.pure]

/-- Bytes that were written as digits read back. -/
theorem decode_encode (bs : Bytes) : decode (encode bs) = .ok bs := by
  simp [decode, decodeFrom_encode]

end Hex

end RingDepth
