import RingDepth.Number.Decimal

/-!
# Spans of time

A span of time is written in the units that suit its length: milliseconds below one second, tenths of
seconds below one minute, then minutes and seconds, and from one hour on hours and minutes. What is
left over in the last unit is dropped, except for seconds, which are rounded.
-/

namespace RingDepth

/-- The text with one place after the point; a half goes to the even neighbour. -/
def Binary64.toTenths (x : Binary64) : String :=
  let tenths := roundQuotient (10 * x.mantissa * twoTo x.exponent) (twoTo (-x.exponent))
  Decimal.toText ⟨tenths, -1⟩

/-- A span of time: whole seconds, and the nanoseconds beyond them. -/
structure Elapsed where
  seconds : Nat
  nanoseconds : Nat
deriving DecidableEq, Repr

namespace Elapsed

/-- The span in seconds, as a number with 53 binary digits. -/
def toBinary64 (t : Elapsed) : Binary64 :=
  Binary64.ofNat t.seconds + Binary64.ofNat t.nanoseconds / Binary64.ofNat 1000000000

/-- The text of the span. -/
def toText (t : Elapsed) : String :=
  if t.seconds = 0 then s!"{t.nanoseconds / 1000000}ms"
  else if t.seconds < 60 then s!"{t.toBinary64.toTenths}s"
  else if t.seconds < 3600 then s!"{t.seconds / 60}m {t.seconds % 60}s"
  else s!"{t.seconds / 3600}h {t.seconds % 3600 / 60}m"

end Elapsed

end RingDepth
