import Std.Data.ExtTreeMap
import RingDepth.Counter
import RingDepth.Text.Basic

/-!
# Listings of spent outputs

A listing tells how many outputs of each amount are known to be spent. A line `@amount` starts the
section of an amount. In it, a line `offset` stands for one output and a line `offset*count` for as
many as the count says. Lines that read otherwise are skipped, and so are offsets before the first
section.
-/

namespace RingDepth

/-- Numbers of outputs by amount. -/
abbrev SpentCounts := Std.ExtTreeMap UInt64 UInt64

namespace SpentCounts

/-- Adds to the number of an amount, which then has an entry even if nothing is added. -/
def add {ε : Type} (counts : SpentCounts) (amount count : UInt64) :
    Except (Halt ε) SpentCounts := do
  let sum ← addCounter (counts.getD amount 0) count
  return counts.insert amount sum

end SpentCounts

/-- A line of a listing. -/
inductive SpentLine where
  | header (amount : UInt64)
  | outputs (count : UInt64)
deriving DecidableEq, Repr

namespace SpentLine

/-- The number of outputs that `offset*count` stands for, if the sum of offset and count is a counter
too. -/
def repeated? (offset count : List Char) : Option SpentLine := do
  let first ← Text.counter? (Text.trimBlanks offset)
  let count ← Text.counter? (Text.trimBlanks count)
  let _ ← addChecked? first count
  return outputs count

/-- What a line without blanks at its ends says, if it is well formed. -/
def parse? : List Char → Option SpentLine
  | '@' :: amount => (Text.counter? amount).map header
  | line =>
    match Text.splitFirst? '*' line with
    | some (offset, count) => repeated? offset count
    | none => (Text.counter? line).map fun _ => outputs 1

end SpentLine

namespace SpentCounts

/-- Adds what lines say, from the section of an amount on. -/
def addLines {ε : Type} : (section? : Option UInt64) → SpentCounts → List SpentLine →
    Except (Halt ε) SpentCounts
  | _, counts, [] => .ok counts
  | _, counts, .header amount :: rest => addLines (some amount) counts rest
  | some amount, counts, .outputs count :: rest => do
    addLines (some amount) (← counts.add amount count) rest
  | none, counts, .outputs _ :: rest => addLines none counts rest

/-- The counts that a listing gives. -/
def parse {ε : Type} (s : String) : Except (Halt ε) SpentCounts :=
  addLines none ∅ ((Text.lines s).filterMap SpentLine.parse?)

end SpentCounts

end RingDepth
