import RingDepth.Number.Binary64

/-!
# Decimal text of a number

The shortest text is the one with the fewest digits that still reads as the same number: its decimal
lies in the interval of the reals that round to the number, whose ends belong to it if the mantissa is
even. Of two such decimals with equally many digits the nearer one is taken, and the greater one if
they are equally near. Numbers are written without an exponent, and whole ones without a point.
-/

namespace RingDepth

/-- A decimal number `digits * 10 ^ exponent`. -/
structure Decimal where
  digits : Nat
  exponent : Int
deriving DecidableEq, Repr

namespace Decimal

/-- The decimal digits of a natural number. -/
def digitsOf (n : Nat) : List Char := Nat.toDigits 10 n

/-- The digits with a point before the last `places`, and zeros in front where there are too few. -/
def withPoint (places : Nat) (digits : List Char) : List Char :=
  let padded := List.replicate (places + 1 - digits.length) '0' ++ digits
  let whole := padded.length - places
  padded.take whole ++ '.' :: padded.drop whole

/-- The decimal without an exponent. -/
def toText (d : Decimal) : String :=
  if 0 ≤ d.exponent then
    String.ofList (digitsOf (d.digits * tenTo d.exponent))
  else String.ofList (withPoint (-d.exponent).toNat (digitsOf d.digits))

/-- The greatest `p` with `10 ^ p ≤ num / den`, for a quotient that is not zero. -/
def magnitude (num den : Nat) : Int :=
  if den ≤ num then ((digitsOf (num / den)).length : Int) - 1
  else -((digitsOf ((den - 1) / num)).length : Int)

end Decimal

/-- The reals that round to one number, in units of `unit / scale`: those between its ends, and the ends
themselves if it is closed. -/
structure RoundingInterval where
  low : Nat
  mid : Nat
  high : Nat
  closed : Bool
  unit : Nat
  scale : Nat

namespace RoundingInterval

/-- The interval of a number. Below a power of two the next number is only half as far away. -/
def ofBinary64 (x : Binary64) : RoundingInterval where
  low := 4 * x.mantissa - (if x.mantissa = twoTo 52 then 1 else 2)
  mid := 4 * x.mantissa
  high := 4 * x.mantissa + 2
  closed := x.mantissa % 2 = 0
  unit := twoTo (x.exponent - 2)
  scale := twoTo (2 - x.exponent)

/-- Whether a decimal lies in the interval. -/
def contains (i : RoundingInterval) (d : Decimal) : Bool :=
  let point := d.digits * tenTo d.exponent * i.scale
  let down := tenTo (-d.exponent)
  if i.closed then decide (i.low * i.unit * down ≤ point ∧ point ≤ i.high * i.unit * down)
  else decide (i.low * i.unit * down < point ∧ point < i.high * i.unit * down)

/-- The decimal of a grid that reads as the number, if one does: of the two neighbours of the number
on the grid, the nearer. -/
def onGrid? (i : RoundingInterval) (exponent : Int) : Option Decimal :=
  let num := i.mid * i.unit * tenTo (-exponent)
  let den := i.scale * tenTo exponent
  let below : Decimal := ⟨num / den, exponent⟩
  let above : Decimal := ⟨num / den + 1, exponent⟩
  match i.contains below, i.contains above with
  | true, true => some (if 2 * (num % den) < den then below else above)
  | true, false => some below
  | false, true => some above
  | false, false => none

end RoundingInterval

namespace Binary64

/-- The decimal with the fewest digits that reads as the number. -/
def shortest (x : Binary64) : Decimal :=
  let i := RoundingInterval.ofBinary64 x
  let top := Decimal.magnitude (i.mid * i.unit) i.scale
  ((List.range 17).findSome? fun (n : Nat) => i.onGrid? (top - n)).getD ⟨0, 0⟩

/-- The shortest text that reads as the number. -/
def toText (x : Binary64) : String :=
  if x.mantissa = 0 then "0" else x.shortest.toText

instance : ToString Binary64 := ⟨toText⟩

end Binary64

end RingDepth
