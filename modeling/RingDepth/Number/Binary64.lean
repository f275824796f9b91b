/-!
# Numbers with 53 binary digits

The non-negative numbers of the double format, exactly: a whole number of 53 binary digits times a
power of two. The exponent is not bounded here, since averages of 64-bit counters and spans of time
stay far inside the range of the format.
-/

namespace RingDepth

/-- The power of two with an exponent, or one if the exponent is negative. -/
def twoTo (exponent : Int) : Nat := Nat.pow 2 exponent.toNat

/-- The power of ten with an exponent, or one if the exponent is negative. -/
def tenTo (exponent : Int) : Nat := Nat.pow 10 exponent.toNat

/-- The integer nearest to `num / den`, and the even one of two that are equally near. -/
def roundQuotient (num den : Nat) : Nat :=
  let below := num / den
  let twice := 2 * (num % den)
  if twice < den ∨ (twice = den ∧ below % 2 = 0) then below else below + 1

/-- A non-negative number with 53 binary digits, `mantissa * 2 ^ exponent`, where the mantissa is zero or at
least `2 ^ 52` and below `2 ^ 53`. -/
structure Binary64 where
  mantissa : Nat
  exponent : Int
deriving DecidableEq, Repr

namespace Binary64

/-- Zero. -/
def zero : Binary64 := ⟨0, 0⟩

/-- The number `num / den * 2 ^ (-shift)`, with the quotient rounded to a whole number. -/
def scaled (num den : Nat) (shift : Int) : Binary64 :=
  let mantissa := roundQuotient (num * twoTo shift) (den * twoTo (-shift))
  if mantissa = twoTo 53 then ⟨twoTo 52, 1 - shift⟩ else ⟨mantissa, -shift⟩

/-- The number nearest to a quotient. -/
def ofQuotient (num den : Nat) : Binary64 :=
  if num = 0 ∨ den = 0 then zero
  else
    let shift : Int := 53 + den.log2 - num.log2
    let whole := num * twoTo shift / (den * twoTo (-shift))
    if whole < twoTo 53 then scaled num den shift else scaled num den (shift - 1)

/-- The number nearest to a rational one that is not negative. -/
def round (q : Rat) : Binary64 := ofQuotient q.num.toNat q.den

/-- The exact value of a number. -/
def toRat (x : Binary64) : Rat := x.mantissa * 2 ^ x.exponent

/-- The number nearest to a natural one. -/
def ofNat (n : Nat) : Binary64 := ofQuotient n 1

/-- The sum, rounded. -/
def add (x y : Binary64) : Binary64 := round (x.toRat + y.toRat)

/-- The quotient, rounded. -/
def div (x y : Binary64) : Binary64 := round (x.toRat / y.toRat)

instance : Add Binary64 := ⟨add⟩

instance : Div Binary64 := ⟨div⟩

instance (n : Nat) : OfNat Binary64 n := ⟨ofNat n⟩

/-- The word of the interchange format: no sign, the exponent raised by 1075, and the mantissa without
its leading digit. -/
def toBits (x : Binary64) : UInt64 :=
  if x.mantissa = 0 then 0
  else UInt64.ofNat ((x.exponent + 1075).toNat * twoTo 52 + (x.mantissa - twoTo 52))

end Binary64

end RingDepth
