import RingDepth.Pages.Tree

/-!
# Finishing a write

A write ends by telling where the trees of the databases that it changed have their roots, and by recording
which pages it gave up and which of earlier writes it looked for and did not take. Recording takes pages
itself, so it goes on until nothing changes any more.
-/

namespace RingDepth

namespace Spending

/-- The key under which the pages of a write are recorded. -/
def writeKey (write : Nat) : Bytes := Bytes.bigEndian 8 write

/-- The length of a record of pages. -/
def recordSize (pages : Nat) : Nat := (pages + 1) * PageSize.number

/-- The greatest number of pages of which a record has room on one page. -/
def maxRecord : Nat := PageSize.room / PageSize.number - 1

/-- How far the recording of pages has come: the last earlier write whose record has been taken out, the
number of pages that have been recorded, the write under which the next pages of earlier writes are recorded,
the room in its record and in all such records, and whether too much room may be made smaller once more. -/
structure Recording where
  erased : Nat := 0
  recorded : Nat := 0
  write : Nat := 0
  room : Nat := 0
  total : Nat := 0
  again : Bool := true

/-- Copies the pages on the way to the last record. -/
def ownLastRecord : Spend Unit := do
  match (← get).file.spare.toList.getLast? with
  | some (write, _) => let _ ← ownWay .spare (writeKey write)
  | none => return

/-- Takes out the record of the earliest write, whose pages are all looked for. -/
def eraseRecord (r : Recording) : Spend Recording := do
  match (← get).file.spare.toList.head? with
  | none => return { r with erased := (← get).lastReused }
  | some (write, _) =>
    eraseFirst .spare
    modifyFile fun f => { f with spare := f.spare.erase write }
    return { r with erased := write, write, room := 0, total := 0 }

/-- Records the pages that the write gives up, and those that are given up meanwhile. -/
def recordGivenUp (write : Nat) : Nat → Spend Nat
  | 0 => return (← get).givenUp.length
  | n + 1 => do
    let count := (← get).givenUp.length
    put .spare (writeKey write) (recordSize count)
    if (← get).givenUp.length = count then
      return count
    recordGivenUp write n

/-- Makes room for a record of pages of earlier writes, of which there are `count` in all. -/
def makeRoom (r : Recording) (count : Nat) : Spend Recording := do
  let r := if r.total < count ∧ maxRecord ≤ r.room ∧ 1 < r.write then
      { r with write := r.write - 1, room := 0 }
    else r
  let others := r.total - r.room
  let wanted := count - others
  let room := if maxRecord < wanted ∧ 1 < r.write then
      wanted / r.write + (maxRecord - wanted / r.write % (maxRecord + 1))
    else wanted
  put .spare (writeKey r.write) (recordSize room)
  modifyFile fun f => { f with spare := f.spare.insert r.write [] }
  return { r with room, total := others + room }

/-- Records all pages that may be taken by later writes, in at most some steps. -/
def recordWithin (write : Nat) : Nat → Recording → Spend Unit
  | 0, _ => return
  | n + 1, r => do
    let s ← get
    let count := (s.reusable.getD []).length
    if r.erased < s.lastReused then
      recordWithin write n (← eraseRecord r)
    else if r.recorded < s.givenUp.length then
      if r.recorded = 0 then
        ownLastRecord
      let recorded ← recordGivenUp write n
      recordWithin write n { r with recorded }
    else if r.total = count then return
    else if count < r.total then
      if r.again then
        recordWithin write n (← makeRoom { r with again := false } count)
    else recordWithin write n (← makeRoom r count)

/-- Fills the records for which room was made, the earliest first, with pages in ascending order. -/
def fill : List Nat → List PageNo → Spend Unit
  | [], _ => return
  | _, [] => return
  | write :: rest, pages => do
    let f := (← get).file
    let size :=
      match (f.root? .spare).map (f.steps (writeKey write)) with
      | some (step :: _) => (((f.leaf step.page)[step.position]?).map LeafEntry.size).getD 0
      | _ => 0
    let here := pages.take (size / PageSize.number - 1)
    put .spare (writeKey write) (recordSize here.length)
    modifyFile fun f => { f with spare := f.spare.insert write here }
    fill rest (pages.drop here.length)

/-- Records the pages that later writes may take. -/
def recordSpare : Spend Unit := do
  let s ← get
  let write := s.file.writes + 1
  if s.reusable.isSome then
    let _ ← ownWay .spare []
  recordWithin write (4 * s.file.spare.size + 64) {}
  let s ← get
  fill (s.file.spare.keys.filter (· ≤ s.lastReused)) (s.reusable.getD [])
  if !s.givenUp.isEmpty then
    modifyFile fun f => { f with spare := f.spare.insert write (s.givenUp.mergeSort (· ≤ ·)) }

/-- The length of the record that tells where the tree of a database is. -/
def nameRecordSize : Nat := 48

/-- Adds the name of a database, which has no entries yet. -/
def addName (database : Database) : Spend Unit := do
  put .names (Bytes.ofText database.name) nameRecordSize
  modify fun s => { s with changed := database :: s.changed }

/-- Tells where the trees of the changed databases are, and records the pages that are free. -/
def finish : Spend Unit := do
  let s ← get
  for database in Database.all do
    if database ∈ s.changed then
      put .names (Bytes.ofText database.name) nameRecordSize
  if !(← get).taken.isEmpty then
    recordSpare

end Spending

namespace PageFile

/-- Carries out a write in a memory map with room for some pages. A write that changes nothing does not
count. -/
def transact (f : PageFile) (limit : Nat) (x : Spend Unit) : Except EngineError PageFile := do
  let ((), s) ← (do x; Spending.finish).run { file := f, limit }
  return if s.taken.isEmpty then f else { s.file with writes := f.writes + 1 }

end PageFile

end RingDepth
