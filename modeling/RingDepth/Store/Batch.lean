import RingDepth.Store.Tables

/-!
# Batches of writes

A batch is a list of operations on the tables that are seen together or not at all. Each operation
sees what the earlier ones of its batch did.
-/

namespace RingDepth

/-- One operation of a batch. -/
inductive BatchStep where
  | insertBlock (height : UInt64) (hash : BlockHash) (bytes : Bytes)
  | insertTransaction (hash : TxHash) (bytes : Bytes)
  | insertOutput (id : OutputId) (location : OutputLocation)
  /-- Stores the location of the next output of an amount, and answers its number. -/
  | appendOutput (amount : UInt64) (location : OutputLocation)
  | outputCount (amount : UInt64)

namespace Tables

/-- Does one operation; those that answer a number give it. -/
def step (t : Tables) : BatchStep → Except (Halt TableError) (Option UInt64 × Tables)
  | .insertBlock height hash bytes => .ok (none, t.insertBlock height hash bytes)
  | .insertTransaction hash bytes => .ok (none, t.insertTransaction hash bytes)
  | .insertOutput id location => (t.insertOutput id location).map (none, ·)
  | .appendOutput amount location =>
    (t.appendOutput amount location).map fun (index, t) => (some index, t)
  | .outputCount amount =>
    ((t.outputCount amount).mapError .failure).map fun count => (some count, t)

/-- Does the operations of a batch in order; the first that fails ends it. -/
def runBatch (t : Tables) :
    List BatchStep → Except (Halt TableError) (List (Option UInt64) × Tables)
  | [] => .ok ([], t)
  | s :: rest => do
    let (answer, t) ← t.step s
    let (answers, t) ← t.runBatch rest
    return (answer :: answers, t)

end Tables

end RingDepth
