import RingDepth.Store.Environment

/-!
# Integrity of a ledger directory

The heights of the blocks must be 0, 1, 2 and so on without a gap. Keys walk in numeric order, so one
pass over the height index finds the first that is not the next one.
-/

namespace RingDepth

/-- What is wrong with the height index. -/
inductive HeightFault where
  | malformedKey
  | gap (expected found : UInt64)
deriving DecidableEq, Repr

/-- The fault in words. -/
def HeightFault.message : HeightFault → String
  | malformedKey => "malformed key in height index"
  | gap expected found => s!"height index gap: expected {expected}, found {found}"

/-- What a check of a ledger directory found: the number of databases that were counted and of their entries,
and the first fault of the height index, if there is one. -/
structure IntegrityReport where
  databases : Nat
  entries : Nat
  faults : List HeightFault
deriving DecidableEq, Repr

/-- Whether nothing is wrong. -/
def IntegrityReport.isHealthy (r : IntegrityReport) : Bool := r.faults.isEmpty

namespace Tables

/-- The first key that is not the height expected of it. -/
def heightFault? (expected : UInt64) : List Bytes → Option HeightFault
  | [] => none
  | key :: rest =>
    match number? key with
    | none => some .malformedKey
    | some found =>
      if found = expected then heightFault? (expected + 1) rest else some (.gap expected found)

/-- Counts the entries of all databases and walks the height index. -/
def checkIntegrity (t : Tables) : IntegrityReport where
  databases := Database.all.length
  entries := Database.all.foldl (fun n database => n + (t.table database).size) 0
  faults := (heightFault? 0 t.blockHeights.keys).toList

end Tables

end RingDepth
