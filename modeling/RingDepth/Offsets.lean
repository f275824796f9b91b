import RingDepth.Counter

/-!
# Ring offsets

A keyed input lists the outputs that it may spend by their indices within one amount class. Stored,
each index is written relative to the one before it; the first is absolute.
-/

namespace RingDepth

/-- Why a list of offsets or of indices is refused. -/
inductive OffsetsError where
  /-- The offset at this position names the output before it again. -/
  | duplicate (position : Nat)
  | overflow
  | notIncreasing (previous next : UInt64)
deriving DecidableEq, Repr

/-- The text of the error. -/
def OffsetsError.message : OffsetsError → String
  | .duplicate i => s!"invalid output offsets: duplicate output reference at position {i}"
  | .overflow => "invalid output offsets: offset sum overflows u64"
  | .notIncreasing p n =>
    s!"invalid output offsets: indices must be strictly increasing ({p} then {n})"

namespace Offsets

/-- The indices of the offsets after the first, from the index before them and their position. -/
def indicesAfter (previous : UInt64) (position : Nat) :
    List UInt64 → Except OffsetsError (List UInt64)
  | [] => .ok []
  | step :: rest =>
    if step = 0 then .error (.duplicate position)
    else
      match addChecked? previous step with
      | none => .error .overflow
      | some index => (indicesAfter index (position + 1) rest).map (index :: ·)

/-- The absolute indices that relative offsets stand for. -/
def toAbsolute : List UInt64 → Except OffsetsError (List UInt64)
  | [] => .ok []
  | first :: rest => (indicesAfter first 1 rest).map (first :: ·)

/-- The offsets of the indices after the first, from the index before them. -/
def stepsAfter (previous : UInt64) : List UInt64 → Except OffsetsError (List UInt64)
  | [] => .ok []
  | index :: rest =>
    if previous < index then (stepsAfter index rest).map ((index - previous) :: ·)
    else .error (.notIncreasing previous index)

/-- The relative offsets of absolute indices, which have to increase strictly. -/
def ofAbsolute : List UInt64 → Except OffsetsError (List UInt64)
  | [] => .ok []
  | first :: rest => (stepsAfter first rest).map (first :: ·)

end Offsets

end RingDepth
