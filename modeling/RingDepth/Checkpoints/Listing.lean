import RingDepth.Checkpoints.Basic
import RingDepth.Text.Json

/-!
# Lists of checkpoints

A checkpoint file is a JSON object whose member `hashlines` lists heights and hashes:
`{"hashlines": [{"height": 10, "hash": "<64 hexadecimal digits>"}]}`. Unknown members are ignored, and
a record may also be written as the list of its fields. Only lines above the greatest height pinned
before are added, one after the other; a line that is refused ends the load and leaves the lines before
it in place.
-/

namespace RingDepth

open Text (Json)

/-- A line of a checkpoint file: a height and the text of a hash. -/
structure CheckpointLine where
  height : UInt64
  hash : String
deriving DecidableEq, Repr

namespace Checkpoints

/-- The value of a member that stands exactly once in an object all of whose keys can be read. -/
def member? (members : List (Option String × Json)) (key : String) : Option Json :=
  if members.all (·.1.isSome) then
    match members.filter fun m => m.1 == some key with
    | [(_, value)] => some value
    | _ => none
  else none

/-- A height: a whole number of digits alone, below `2 ^ 64`. -/
def height? : Json → Option UInt64
  | .number literal =>
    match literal.toNat? with
    | some n => if literal.all Char.isDigit && decide (n < UInt64.size) then some (.ofNat n) else none
    | none => none
  | _ => none

/-- The text of a hash. -/
def hashText? : Json → Option String
  | .text value => value
  | _ => none

/-- A line, as an object or as the list of its fields. -/
def line? : Json → Option CheckpointLine
  | .object members => do
    return ⟨← height? (← member? members "height"), ← hashText? (← member? members "hash")⟩
  | .list [height, hash] => do return ⟨← height? height, ← hashText? hash⟩
  | _ => none

/-- The lines of a list. -/
def lineList? : Json → Option (List CheckpointLine)
  | .list items => items.mapM line?
  | _ => none

/-- The lines of a whole file, as an object or as the list of its only field. -/
def file? : Json → Option (List CheckpointLine)
  | .object members => do lineList? (← member? members "hashlines")
  | .list [lines] => lineList? lines
  | _ => none

/-- The lines that a text holds. -/
def parseLines (s : String) : Except CheckpointError (List CheckpointLine) :=
  match (Json.parse? s).bind file? with
  | some lines => .ok lines
  | none => .error .malformed

-- Reading a hash must not be unfolded where the recursion below is.
attribute [local irreducible] addText

/-- Adds lines in order up to the first that is refused. Gives the registry after it, and the number
of lines added or the reason of the refusal. -/
def addLines (c : Checkpoints) : List CheckpointLine → Checkpoints × Except CheckpointError Nat
  | [] => (c, .ok 0)
  | line :: rest =>
    match c.addText line.height line.hash with
    | .error e => (c, .error e)
    | .ok c =>
      let (c, added) := c.addLines rest
      (c, added.map (· + 1))

/-- Without lines, nothing is added. -/
theorem addLines_nil (c : Checkpoints) : c.addLines [] = (c, .ok 0) := by rw [addLines]

/-- The first line is added before the others. -/
theorem addLines_cons (c : Checkpoints) (line : CheckpointLine) (rest : List CheckpointLine) :
    c.addLines (line :: rest) = match c.addText line.height line.hash with
      | .error e => (c, .error e)
      | .ok c => ((c.addLines rest).1, (c.addLines rest).2.map (· + 1)) := by
  rw [addLines]

/-- The lines that a load adds: those above the greatest pinned height, if anything is pinned. -/
def newLines (c : Checkpoints) (lines : List CheckpointLine) : List CheckpointLine :=
  if c.isEmpty then lines else lines.filter fun line => decide (c.maxHeight < line.height)

/-- Adds the new ones of the lines that a text holds. -/
def load (c : Checkpoints) (s : String) : Checkpoints × Except CheckpointError Nat :=
  match parseLines s with
  | .error e => (c, .error e)
  | .ok lines => c.addLines (c.newLines lines)

end Checkpoints

end RingDepth
