import RingDepth.Pages.Spending

/-!
# Entries in trees of pages

An entry goes onto the leaf where its key belongs. A leaf that has no room for it is split: the upper half
of its entries moves to a new page, and the branch above leads to that page under its first key. A branch
that has no room is split the same way, and a split root gets a branch above it.
-/

namespace RingDepth

namespace Spending

/-- The number of leading entries that have room on one page beside what is used already. -/
def fitting (used : Nat) : List Nat → Nat
  | [] => 0
  | room :: rest => if PageSize.room < used + room then 0 else fitting (used + room) rest + 1

/-- The number of entries on a page from which it is split in the middle, if the new entry is small and
not the last. -/
def manyEntries : Nat := 32

/-- The number of entries that stay on a page that is split, given the rooms of its entries, and the room
and the position of a new one. Half of them stay unless they have no room. -/
def splitPosition (isLeaf : Bool) (rooms : List Nat) (room position : Nat) : Nat :=
  let count := rooms.length
  let half := (count + 1) / 2
  let all := rooms.insertIdx position room
  if manyEntries ≤ count ∧ room ≤ PageSize.room / 16 ∧ position < count then half
  else if position ≤ half ∨ count ≤ position then
    let tried := if count ≤ position then count else half + 1 + isLeaf.toNat
    min (fitting 0 (all.take tried)) (tried - 1)
  else
    max (count - fitting 0 (all.reverse.take (count - half + 1))) half + 1

/-- Adds an entry behind the last of the steps, which the others lead to. -/
def addBranch (tree : PageTree) : List PageStep → Bytes → PageNo → Spend Unit
  | [], _, _ => return
  | ⟨p, position⟩ :: above, key, child => do
    let f := (← get).file
    let entries := f.branch p
    let all := entries.insertIdx (position + 1) ⟨key, child⟩
    if PageSize.entryHeader + key.length + PageSize.pointer ≤ f.left p then
      write p (.branch all)
    else
      let upper ← take (.branch [])
      let stay := splitPosition false (entries.map BranchEntry.room) (BranchEntry.roomOf key)
        (position + 1)
      let moved := all.drop stay
      let first := ((moved.head?).map BranchEntry.key).getD []
      match above with
      | [] =>
        let root ← take (.branch [⟨[], p⟩, ⟨first, upper⟩])
        setRoot tree root
      | _ => addBranch tree above first upper
      write p (.branch (all.take stay))
      write upper (.branch (moved.modifyHead fun e => { e with key := [] }))

/-- Finds a place for the value of a new entry. -/
def place (key : Bytes) (size : Nat) : Spend LeafEntry := do
  if LeafEntry.fits key size then
    return { key, size, run := none }
  let count := PageSize.pagesFor size
  return { key, size, run := some ⟨← takeRun count, count⟩ }

/-- Adds an entry to the leaf that steps lead to, at the position that they tell. -/
def addLeaf (tree : PageTree) (key : Bytes) (size : Nat) : List PageStep → Spend Unit
  | [] => return
  | ⟨p, position⟩ :: above => do
    let f := (← get).file
    let entries := f.leaf p
    let room := LeafEntry.roomOf key size (LeafEntry.fits key size)
    if room ≤ f.left p then
      let entry ← place key size
      write p (.leaf (entries.insertIdx position entry))
    else
      let upper ← take (.leaf [])
      let above ←
        if above.isEmpty then do
          let root ← take (.branch [⟨[], p⟩])
          setRoot tree root
          pure [⟨root, 0⟩]
        else pure above
      let stay := splitPosition true (entries.map LeafEntry.room) room position
      let keys := (entries.map LeafEntry.key).insertIdx position key
      addBranch tree above (keys[stay]?.getD []) upper
      let entry ← place key size
      let all := entries.insertIdx position entry
      write p (.leaf (all.take stay))
      write upper (.leaf (all.drop stay))

/-- Marks a database as changed. The page with the names is copied first, if the database has pages. -/
def markChanged (tree : PageTree) (hasPages : Bool) : Spend Unit := do
  match tree with
  | .entries database =>
    if database ∉ (← get).changed then
      if hasPages then
        let _ ← ownWay .names (Bytes.ofText database.name)
      modify fun s => { s with changed := database :: s.changed }
  | _ => return

/-- Takes the entry at a step out of its leaf. -/
def erase (step : PageStep) : Spend Unit := do
  let entries := (← get).file.leaf step.page
  write step.page (.leaf (entries.eraseIdx step.position))

/-- Adds an entry to a tree, or replaces the one with its key. A value of the same length takes the place
of the old one. -/
def put (tree : PageTree) (key : Bytes) (size : Nat) : Spend Unit := do
  match (← get).file.root? tree with
  | none =>
    let root ← take (.leaf [])
    setRoot tree root
    markChanged tree false
    addLeaf tree key size [⟨root, 0⟩]
  | some _ =>
    markChanged tree true
    let steps ← ownWay tree key
    match steps with
    | [] => return
    | step :: _ =>
      let s ← get
      let entries := s.file.leaf step.page
      let keep : Spend Unit :=
        write step.page (.leaf (entries.modify step.position fun e => { e with size }))
      match entries[step.position]? with
      | none => addLeaf tree key size steps
      | some e =>
        if e.key ≠ key then addLeaf tree key size steps
        else
          match e.run with
          | some run =>
            if PageSize.pagesFor size ≤ run.count ∧ run.first ∈ s.taken then keep
            else do
              giveUpRun run
              erase step
              addLeaf tree key size steps
          | none =>
            if e.size = size then keep
            else do
              erase step
              addLeaf tree key size steps

/-- Takes the first entry out of a tree. A page that loses all its entries stays, unless it is the root. -/
def eraseFirst (tree : PageTree) : Spend Unit := do
  match ← ownWay tree [] with
  | [] => return
  | step :: above =>
    match ((← get).file.leaf step.page).head? with
    | none => return
    | some e =>
      match e.run with
      | some run => giveUpRun run
      | none => pure ()
      erase { step with position := 0 }
      if above.isEmpty && ((← get).file.leaf step.page).isEmpty then
        dropRoot tree step.page

end Spending

end RingDepth
