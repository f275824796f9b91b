import RingDepth.Pages.Basic

/-!
# Taking pages

A write never changes a page that an earlier one left: it takes another page for the changed copy, and gives
the old page up. Pages that were given up are taken again once the write before the last has been made
after them, and the lowest come first. New pages are taken only when none of those serves, and only as far
as the memory map reaches.
-/

namespace RingDepth

/-- The state of a write: the file as the write leaves it, the number of pages that the memory map has room
for, the pages that the write has taken and given up, those of earlier writes that may be taken, if any were
looked for, with the last of these writes, and the databases that have been changed. -/
structure Spending where
  file : PageFile
  limit : Nat
  taken : List PageNo := []
  givenUp : List PageNo := []
  reusable : Option (List PageNo) := none
  lastReused : Nat := 0
  changed : List Database := []

/-- A step of a write, which fails if there are no more pages. -/
abbrev Spend := StateT Spending (Except EngineError)

namespace Spending

/-- Cuts a run out of pages in ascending order: its first page, and the pages that are left. -/
def cutRun (count : Nat) : List PageNo → Option (PageNo × List PageNo)
  | [] => none
  | p :: rest =>
    if (p :: rest).take count = (PageRun.mk p count).toList then some (p, rest.drop (count - 1))
    else (cutRun count rest).map fun (first, left) => (first, p :: left)

/-- The next earlier write whose pages may be taken, with those pages. -/
def nextSpare? (s : Spending) : Option (Nat × List PageNo) :=
  s.file.spare.toList.find? fun (write, _) => s.lastReused < write ∧ write < s.file.writes

/-- Takes pages that were never used. -/
def takeNew (count : Nat) : Spend PageNo := do
  let s ← get
  let first := s.file.next
  if s.limit ≤ first + count then
    throw .mapFull
  set { s with
    file := { s.file with next := first + count }
    taken := first :: s.taken }
  return first

/-- Takes a run of pages, after looking through the pages of at most some earlier writes. -/
def takeRunWithin : Nat → (count : Nat) → Spend PageNo
  | 0, count => takeNew count
  | n + 1, count => do
    let s ← get
    match cutRun count (s.reusable.getD []) with
    | some (first, left) =>
      set { s with reusable := some left, taken := first :: s.taken }
      return first
    | none =>
      match s.nextSpare? with
      | none => takeNew count
      | some (write, pages) =>
        set { s with
          reusable := some ((s.reusable.getD []).merge pages (· ≤ ·))
          lastReused := write }
        takeRunWithin n count

/-- Takes a run of pages. -/
def takeRun (count : Nat) : Spend PageNo := do
  takeRunWithin ((← get).file.spare.size + 1) count

/-- Gives up pages. -/
def giveUp (pages : List PageNo) : Spend Unit :=
  modify fun s => { s with givenUp := s.givenUp ++ pages }

/-- Gives up the pages of a value. Those that the write itself has taken can be taken again at once,
if pages of earlier writes were looked for. -/
def giveUpRun (run : PageRun) : Spend Unit := do
  let s ← get
  match s.reusable with
  | some pages =>
    if run.first ∈ s.taken then
      set { s with
        reusable := some (pages.merge run.toList (· ≤ ·))
        taken := s.taken.erase run.first }
    else giveUp run.toList
  | none => giveUp run.toList

/-- Changes the file. -/
def modifyFile (f : PageFile → PageFile) : Spend Unit :=
  modify fun s => { s with file := f s.file }

/-- Says what is on a page. -/
def write (p : PageNo) (page : Page) : Spend Unit :=
  modifyFile fun f => { f with pages := f.pages.insert p page }

/-- Makes a page the root of a tree. -/
def setRoot (tree : PageTree) (p : PageNo) : Spend Unit :=
  modifyFile fun f => { f with roots := (tree, p) :: f.roots.filter fun root => root.1 ≠ tree }

/-- Empties a tree, whose root is its only page. -/
def dropRoot (tree : PageTree) (p : PageNo) : Spend Unit := do
  modifyFile fun f => { f with
    roots := f.roots.filter fun root => root.1 ≠ tree
    pages := f.pages.erase p }
  giveUp [p]

/-- Takes a page and says what is on it. -/
def take (page : Page) : Spend PageNo := do
  let p ← takeRun 1
  write p page
  return p

/-- The page that holds the copy of a page: the page itself if the write has taken it. -/
def own (p : PageNo) : Spend PageNo := do
  let s ← get
  if p ∈ s.taken then
    return p
  let copy ← takeRun 1
  giveUp [p]
  modifyFile fun f =>
    match f.pages[p]? with
    | some page => { f with pages := (f.pages.erase p).insert copy page }
    | none => f
  return copy

/-- Makes an entry of a branch lead to a page. -/
def leadTo (step : PageStep) (p : PageNo) : Spend Unit := do
  let entries := (← get).file.branch step.page
  write step.page (.branch (entries.modify step.position fun e => { e with page := p }))

/-- Copies the pages of steps from a root on. Gives the steps over the copies, the last first, before
those given. -/
def ownSteps (tree : PageTree) :
    Option PageStep → List PageStep → List PageStep → Spend (List PageStep)
  | _, [], done => return done
  | above, step :: rest, done => do
    let copy ← own step.page
    if copy ≠ step.page then
      match above with
      | none => setRoot tree copy
      | some above => leadTo above copy
    let here := { step with page := copy }
    ownSteps tree (some here) rest (here :: done)

/-- Copies the pages of a tree on the way to a key. Gives the steps over the copies, the last first. -/
def ownWay (tree : PageTree) (key : Bytes) : Spend (List PageStep) := do
  let f := (← get).file
  match f.root? tree with
  | none => return []
  | some root => ownSteps tree none (f.steps key root).reverse []

end Spending

end RingDepth
