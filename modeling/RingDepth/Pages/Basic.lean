import RingDepth.Store.Tables

/-!
# The pages of a ledger file

The engine divides a ledger file into pages and keeps each database as a tree of pages: branches that lead
to further pages, and leaves with the entries. A value that is too long for a leaf stands on pages of its
own. Two more trees hold the names of the databases and the pages that were given up. Here only the
use of pages is followed, not what is written on them: keys, lengths and page numbers.
-/

namespace RingDepth

/-- The number of a page. -/
abbrev PageNo := Nat

namespace PageSize

/-- The number of bytes of a page. -/
def bytes : Nat := 4096

/-- The number of bytes at the start of a page that no entry may use. -/
def header : Nat := 16

/-- The room for entries on a page. -/
def room : Nat := bytes - header

/-- The number of bytes of a page number. -/
def number : Nat := 8

/-- The number of bytes of an entry beside its key and value. -/
def entryHeader : Nat := 8

/-- The number of bytes that point from the start of a page to an entry. -/
def pointer : Nat := 2

/-- The greatest length of an entry that stands on a leaf with its value: two have room on a page. -/
def maxEntry : Nat := room / 2 - pointer

/-- The number of pages that a value takes outside of leaves. -/
def pagesFor (size : Nat) : Nat := (header - 1 + size) / bytes + 1

/-- The room that an entry of some length takes. -/
def roomFor (length : Nat) : Nat := length + length % 2 + pointer

end PageSize

/-- Successive pages: the first one and their number. -/
structure PageRun where
  first : PageNo
  count : Nat
deriving DecidableEq, Repr

/-- The page numbers of a run. -/
def PageRun.toList (r : PageRun) : List PageNo := List.range' r.first r.count

/-- An entry of a leaf: a key, the length of its value, and the pages of the value if it does not stand on the
leaf. -/
structure LeafEntry where
  key : Bytes
  size : Nat
  run : Option PageRun
deriving DecidableEq

namespace LeafEntry

/-- Whether an entry stands on a leaf with its value. -/
def fits (key : Bytes) (size : Nat) : Bool :=
  PageSize.entryHeader + key.length + size ≤ PageSize.maxEntry

/-- The room that an entry takes on a leaf, if its value stands there or elsewhere. -/
def roomOf (key : Bytes) (size : Nat) (inside : Bool) : Nat :=
  PageSize.roomFor (PageSize.entryHeader + key.length + if inside then size else PageSize.number)

/-- The room that the entry takes. -/
def room (e : LeafEntry) : Nat := roomOf e.key e.size e.run.isNone

end LeafEntry

/-- An entry of a branch: a page, and a key that none of those below it is less than. The first entry of a
branch has the empty key. -/
structure BranchEntry where
  key : Bytes
  page : PageNo
deriving DecidableEq

namespace BranchEntry

/-- The room that an entry of a branch takes. -/
def roomOf (key : Bytes) : Nat := PageSize.roomFor (PageSize.entryHeader + key.length)

/-- The room that the entry takes. -/
def room (e : BranchEntry) : Nat := roomOf e.key

end BranchEntry

/-- A page of a tree. -/
inductive Page where
  | leaf (entries : List LeafEntry)
  | branch (entries : List BranchEntry)
deriving DecidableEq

/-- The room that the entries of a page take. -/
def Page.used : Page → Nat
  | leaf entries => (entries.map LeafEntry.room).foldl (· + ·) 0
  | branch entries => (entries.map BranchEntry.room).foldl (· + ·) 0

/-- The trees of a file. -/
inductive PageTree where
  /-- The pages that were given up, by the number of the write that did it. -/
  | spare
  | names
  | entries (database : Database)
deriving DecidableEq

/-- A step from the root of a tree to an entry: a page, and a position on it. -/
structure PageStep where
  page : PageNo
  position : Nat
deriving DecidableEq, Repr

/-- How a file is divided into pages: the number of the first page that was never used, the number of writes
that changed the file, the roots and pages of its trees, and the pages that each write gave up. The first two
pages tell where the trees are. -/
structure PageFile where
  next : PageNo := 2
  writes : Nat := 0
  roots : List (PageTree × PageNo) := []
  pages : Std.ExtTreeMap PageNo Page := ∅
  spare : Std.ExtTreeMap Nat (List PageNo) := ∅
deriving DecidableEq

namespace PageFile

/-- The root of a tree, unless it is empty. -/
def root? (f : PageFile) (tree : PageTree) : Option PageNo := f.roots.lookup tree

/-- The entries of a leaf. -/
def leaf (f : PageFile) (p : PageNo) : List LeafEntry :=
  match f.pages[p]? with
  | some (.leaf entries) => entries
  | _ => []

/-- The entries of a branch. -/
def branch (f : PageFile) (p : PageNo) : List BranchEntry :=
  match f.pages[p]? with
  | some (.branch entries) => entries
  | _ => []

/-- The room that is left on a page. -/
def left (f : PageFile) (p : PageNo) : Nat :=
  PageSize.room - ((f.pages[p]?).map Page.used).getD 0

/-- The position at which a key stands or would stand on a page: among the entries of a leaf, or that
of the entry to follow. -/
def positionOf (key : Bytes) : Page → Nat
  | .leaf entries => (entries.takeWhile fun e => (compare e.key key).isLT).length
  | .branch entries => ((entries.drop 1).takeWhile fun e => (compare e.key key).isLE).length

/-- The steps to a key from a page on, the last first, after those given. -/
def stepsWithin (f : PageFile) (key : Bytes) : Nat → PageNo → List PageStep → List PageStep
  | 0, _, steps => steps
  | n + 1, p, steps =>
    match f.pages[p]? with
    | none => steps
    | some page =>
      let here : PageStep := ⟨p, positionOf key page⟩
      match page with
      | .leaf _ => here :: steps
      | .branch entries =>
        match entries[here.position]? with
        | some e => f.stepsWithin key n e.page (here :: steps)
        | none => here :: steps

/-- The steps from a root to a key, the last first. -/
def steps (f : PageFile) (key : Bytes) (root : PageNo) : List PageStep :=
  f.stepsWithin key f.pages.size root []

/-- The number of bytes of the file. -/
def length (f : PageFile) : Nat := f.next * PageSize.bytes

end PageFile

end RingDepth
