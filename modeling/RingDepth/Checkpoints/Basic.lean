import RingDepth.Files.Basic
import RingDepth.Identifier

/-!
# Checkpoints

A registry pins the hash of the block at some heights. A block at such a height has to have this hash,
or it belongs to another chain. What is pinned once stays pinned.
-/

namespace RingDepth

/-- Why a registry refuses a checkpoint, a block or a file. -/
inductive CheckpointError where
  | invalidHash (e : IdentifierError)
  /-- Another hash is pinned at the height. -/
  | conflict (height : UInt64)
  /-- A block has another hash than the one pinned at its height. -/
  | mismatch (height : UInt64) (expected found : BlockHash)
  | file (e : FileError)
  | malformed
deriving DecidableEq

/-- The text of the error. -/
def CheckpointError.message : CheckpointError → String
  | invalidHash e => s!"invalid checkpoint hash: {e.message}"
  | conflict height => s!"checkpoint at height {height} already exists with a different hash"
  | mismatch height expected found =>
    s!"checkpoint failed at height {height}: expected {expected}, found {found}"
  | file e => s!"failed to read checkpoint file: {e.message}"
  | malformed => "failed to parse checkpoint file: no list of checkpoints"

/-- Pinned block hashes by height. -/
structure Checkpoints where
  points : Std.ExtTreeMap UInt64 BlockHash := ∅
deriving DecidableEq

namespace Checkpoints

/-- The registry that pins nothing. -/
def empty : Checkpoints := {}

/-- The hash pinned at a height. -/
def get? (c : Checkpoints) (height : UInt64) : Option BlockHash := c.points[height]?

/-- Whether nothing is pinned. -/
def isEmpty (c : Checkpoints) : Bool := c.points.isEmpty

/-- The greatest pinned height, or zero if nothing is pinned. -/
def maxHeight (c : Checkpoints) : UInt64 := (c.points.maxKey?).getD 0

/-- Pins a hash. Pinning the same hash again changes nothing. -/
def add (c : Checkpoints) (height : UInt64) (hash : BlockHash) : Except CheckpointError Checkpoints :=
  match c.get? height with
  | some pinned => if pinned = hash then .ok c else .error (.conflict height)
  | none => .ok { points := c.points.insert height hash }

/-- Pins the hash that a text gives. -/
def addText (c : Checkpoints) (height : UInt64) (text : String) :
    Except CheckpointError Checkpoints := do
  let hash ← (Identifier.parse text).mapError CheckpointError.invalidHash
  c.add height hash

/-- Whether a height is at most the greatest pinned one. -/
def inZone (c : Checkpoints) (height : UInt64) : Bool :=
  !c.isEmpty && decide (height ≤ c.maxHeight)

/-- Checks the hash of a block: true if it is the one pinned at its height, false if none is. -/
def check (c : Checkpoints) (height : UInt64) (hash : BlockHash) : Except CheckpointError Bool :=
  match c.get? height with
  | none => .ok false
  | some pinned => if pinned = hash then .ok true else .error (.mismatch height pinned hash)

/-- The greatest pinned height up to another one. -/
def lastUpTo? (c : Checkpoints) (height : UInt64) : Option UInt64 :=
  (c.points.keys.filter fun pinned => decide (pinned ≤ height)).getLast?

/-- Whether a block may replace the one at its height in a chain of the given length. The last height
pinned up to that length has to be below it, and the first block is never replaced. -/
def allowsAlternative (c : Checkpoints) (chainLength height : UInt64) : Bool :=
  if height = 0 then false
  else
    match c.lastUpTo? chainLength with
    | none => true
    | some pinned => decide (pinned < height)

/-- Finds the least height at which two registries pin different hashes. -/
def conflict? (c other : Checkpoints) : Option UInt64 :=
  (other.points.toList.find? fun (height, hash) => (c.get? height).any (· != hash)).map Prod.fst

/-- Fails if two registries pin different hashes at one height. -/
def checkConflicts (c other : Checkpoints) : Except CheckpointError Unit :=
  match c.conflict? other with
  | some height => .error (.conflict height)
  | none => .ok ()

/-- The pinned heights and hashes in ascending order. -/
def toList (c : Checkpoints) : List (UInt64 × BlockHash) := c.points.toList

end Checkpoints

end RingDepth
