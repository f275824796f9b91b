import RingDepth.Pages.Commit

/-!
# Ledger files

The file in which a ledger directory keeps its databases: their tables, and how the file is divided into
pages. Who reads it as a plain file sees two header pages with the mark of the engine, and the pages after
them.
-/

namespace RingDepth

/-- The file of a ledger directory: the tables, the databases that have been made, the pages, the greatest
memory map with which it was written, in bytes, and its length if there are bytes after the pages. -/
structure LedgerFile where
  tables : Tables := {}
  present : List Database := []
  pages : PageFile := {}
  mapSize : Nat := 0
  length : Nat := 0
deriving DecidableEq

namespace LedgerFile

/-- The mark of the engine. -/
def mark : Bytes := Bytes.littleEndian 4 0xbeefc0de

/-- The version of the engine's format. -/
def version : Nat := 1

/-- Fills bytes up with zeros. -/
def padTo (length : Nat) (bs : Bytes) : Bytes := bs ++ List.replicate (length - bs.length) 0

/-- A header page. -/
def headerPage (p : PageNo) : Bytes :=
  padTo PageSize.bytes <|
    padTo PageSize.header (Bytes.littleEndian 8 p ++ [0, 0, 8]) ++ mark ++ Bytes.littleEndian 4 version

/-- The header pages. -/
def header : Bytes := headerPage 0 ++ headerPage 1

/-- The number of bytes of the file. -/
def size (f : LedgerFile) : Nat := max f.length f.pages.length

/-- The bytes of the file as a plain file, with zeros for all that stands on its pages. -/
def image (f : LedgerFile) : Bytes := padTo f.size header

/-- The file after bytes are written over it: it stays a ledger file if its header pages are as they
were, and no page is missing. -/
def overwrite? (f : LedgerFile) (bs : Bytes) : Option LedgerFile :=
  if header.isPrefixOf bs ∧ f.pages.length ≤ bs.length then some { f with length := bs.length }
  else none

end LedgerFile

end RingDepth
